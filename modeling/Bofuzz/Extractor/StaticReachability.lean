import Bofuzz.Extractor.FeatureArrays
import Bofuzz.Extractor.Sccs
import Bofuzz.Lib.Condensation
import Mathlib.Algebra.BigOperators.Ring.Finset

/-! How many blocks a block reaches, and how many reach it
    (`static_analysis/features_extractor.py`).

    The components of the graph are numbered, and the blocks are counted on the acyclic graph of the
    components: those of the components that are reached, and those of the own component but the
    block itself. -/

namespace Bofuzz.Extractor
open Loop Relation FinishOrder Worklist Listing
open List hiding Disjoint

/-- The sets that are iterated. -/
inductive ReachabilitySet where
  | nodes
  | radj (n : ℕ)
  | scc (idx : ℕ)
  | forward (idx : ℕ)
  | backward (idx : ℕ)
  | descendants (idx : ℕ)
  | ancestors (idx : ℕ)

/-! ### The program -/

/-- `sum(scc_sizes[s] for s in visited_sccs)`. -/
def sumSizes (sccSizes : Dict ℕ ℕ) (ids : List ℕ) : Prog ℤ :=
  ids.foldlM (fun total s => do
    let size ← ofOption (sccSizes.lookup s)
    pure (total + size)) 0

/-- The blocks that a component reaches, itself but one included. -/
def reachableSize (dag : ℕ → List ℕ) (visited : Listing ℕ) (sccSizes : Dict ℕ ℕ) (sccId : ℕ) :
    Prog ℤ := do
  let found ← explore .back dag
    ((dag sccId).foldl (mark .back) { marked := ∅, work := [], taken := ∅ })
  let total ← sumSizes sccSizes (visited.list found.marked)
  let own ← ofOption (sccSizes.lookup sccId)
  pure (total + (own - 1))

/-- `dag n` is what iterating over `dag.get(n, ())` gives. -/
def computeReachableSizesOnDag (dag : ℕ → List ℕ) (visited : ℕ → Listing ℕ) (sccSizes : Dict ℕ ℕ)
    (sccOrder : List ℕ) : Prog (Dict ℕ ℤ) :=
  sccOrder.reverse.foldlM (fun reachable sccId => do
    let total ← reachableSize dag (visited sccId) sccSizes sccId
    pure (reachable.insert sccId total)) ∅

/-- The component of every node, and the sizes of the components. -/
structure Numbering where
  nodeToScc : Dict ℕ ℕ
  sccSizes : Dict ℕ ℕ

variable (listing : ReachabilitySet → Listing ℕ) (numbering : Numbering) (scc : Finset ℕ × ℕ)

def addScc : Numbering where
  sccSizes := numbering.sccSizes.insert scc.2 scc.1.card
  nodeToScc := ((listing (.scc scc.2)).list scc.1).foldl (fun nodeToScc n => nodeToScc.insert n scc.2)
    numbering.nodeToScc

def numberSccs (sccs : List (Finset ℕ)) : Numbering :=
  sccs.zipIdx.foldl (addScc listing) { nodeToScc := ∅, sccSizes := ∅ }

/-- The edge between components that an edge of the graph gives. -/
def addForward (nodes : Finset ℕ) (nodeToScc : Dict ℕ ℕ) (uScc : ℕ) (dag : Dict ℕ (Finset ℕ))
    (v : ℕ) :
    Prog (Dict ℕ (Finset ℕ)) :=
  if v ∈ nodes then do
    let vScc ← ofOption (nodeToScc.lookup v)
    pure (if uScc ≠ vScc then addTo dag uScc vScc else dag)
  else pure dag

/-- `scc_dag_fwd`. -/
def forwardDag (cfg : Cfg) (nodes : Finset ℕ) (nodeToScc : Dict ℕ ℕ) : Prog (Dict ℕ (Finset ℕ)) :=
  ((listing .nodes).list nodes).foldlM (fun dag u => do
    let uScc ← ofOption (nodeToScc.lookup u)
    ((cfg.lookup u).getD []).foldlM (addForward nodes nodeToScc uScc) dag) ∅

/-- `scc_dag_rev`. -/
def backwardDag (dag : Dict ℕ (Finset ℕ)) : Dict ℕ (Finset ℕ) :=
  dag.entries.foldl (fun rev e =>
    ((listing (.forward e.1)).list e.2).foldl (fun rev vScc => addTo rev vScc e.1) rev) ∅

variable {K : Type} [Field K]

def computeStaticReachabilityFeatures (cfg : Cfg) (blocks : Blocks K) : Prog (Blocks K) := do
  let nodes := (blocks.map Prod.fst).toFinset
  if nodes = ∅ then pure blocks
  else
    let sccs ← computeSccsIterative (fun n => listing (.radj n)) (fun n => (cfg.lookup n).getD [])
      ((listing .nodes).list nodes)
    let numbering := numberSccs listing sccs
    let dag ← forwardDag listing cfg nodes numbering.nodeToScc
    let rev := backwardDag listing dag
    let sccOrder := List.range sccs.length
    let descendants ← computeReachableSizesOnDag
      (fun n => (listing (.forward n)).list ((dag.lookup n).getD ∅))
      (fun n => listing (.descendants n)) numbering.sccSizes sccOrder
    let ancestors ← computeReachableSizesOnDag
      (fun n => (listing (.backward n)).list ((rev.lookup n).getD ∅))
      (fun n => listing (.ancestors n)) numbering.sccSizes sccOrder
    pure (blocks.map fun e =>
      match numbering.nodeToScc.lookup e.1 with
      | none => e
      | some sccId => (e.1, (e.2.setRawAttr "static_descendant_count"
          ((descendants.lookup sccId).getD 0 : ℤ)).setRawAttr "static_ancestor_count"
          ((ancestors.lookup sccId).getD 0 : ℤ)))

/-! ### The numbers of the components -/

section
variable {listing}

theorem lookup_addScc (n : ℕ) : (addScc listing numbering scc).nodeToScc.lookup n =
      if n ∈ scc.1 then some scc.2 else numbering.nodeToScc.lookup n := by
  rw [addScc, lookup_foldl_insert]
  simp only [mem_list]

theorem sccSizes_addScc (i : ℕ) : (addScc listing numbering scc).sccSizes.lookup i =
      if i = scc.2 then some scc.1.card else numbering.sccSizes.lookup i := lookup_insert_ite

/-- What the numbers say. -/
structure Numbered (nodes : Finset ℕ) (R : ℕ → ℕ → Prop) (count : ℕ) (numbering : Numbering)
    (comp : ℕ → ℕ) : Prop where
  names : Condensation.Names nodes R comp
  node : ∀ n ∈ nodes, numbering.nodeToScc.lookup n = some (comp n)
  lt : ∀ n ∈ nodes, comp n < count
  size : ∀ i < count, numbering.sccSizes.lookup i = some (nodes.filter (comp · = i)).card

theorem numberSccs_numbered (listing : ReachabilitySet → Listing ℕ) {adj : ℕ → List ℕ} {ns : List ℕ}
    {sccs : List (Finset ℕ)} (h : AreSccs adj ns sccs) :
    ∃ comp, Numbered ns.toFinset (Within adj ns) sccs.length
      (numberSccs listing sccs) comp := by
  have hzip : ∀ {comp : Finset ℕ} {i : ℕ}, sccs[i]? = some comp → (comp, i) ∈ sccs.zipIdx :=
    fun hi => mem_zipIdx_iff_getElem?.mpr hi
  have hdisjoint : sccs.zipIdx.Pairwise fun a b => Disjoint a.1 b.1 := by
    rw [← pairwise_map, zipIdx_map_fst]
    exact h.disjoint
  have hindices : sccs.zipIdx.Pairwise fun a b => a.2 ≠ b.2 := by
    rw [← pairwise_map, zipIdx_map_snd]
    exact nodup_range'
  have hnode : ∀ {comp : Finset ℕ} {i n : ℕ}, sccs[i]? = some comp → n ∈ comp →
      (numberSccs listing sccs).nodeToScc.lookup n = some i := fun {_ _ n} hi hn =>
    Run.foldl_set (g := fun numbering : Numbering => numbering.nodeToScc.lookup n)
      (fun numbering scc => lookup_addScc numbering scc n)
      (hdisjoint.imp fun hab ha hb => Finset.disjoint_left.mp hab ha hb) _ (hzip hi) hn
  have hsize : ∀ i (hi : i < sccs.length),
      (numberSccs listing sccs).sccSizes.lookup i = some sccs[i].card := fun i hi =>
    Run.foldl_set (g := fun numbering : Numbering => numbering.sccSizes.lookup i)
      (fun numbering scc => sccSizes_addScc numbering scc i)
      (hindices.imp fun hab ha hb => hab (ha.symm.trans hb)) _ (hzip (getElem?_eq_getElem hi)) rfl
  generalize numberSccs listing sccs = numbering at hnode hsize
  have hfind : ∀ n ∈ ns.toFinset, ∃ (i : ℕ) (comp : Finset ℕ), sccs[i]? = some comp ∧ n ∈ comp := by
    intro n hn
    obtain ⟨comp, hcomp, hmem⟩ := (h.cover n).mp (mem_toFinset.mp hn)
    obtain ⟨i, hi⟩ := mem_iff_getElem?.mp hcomp
    exact ⟨i, comp, hi, hmem⟩
  have hcomp : ∀ {comp : Finset ℕ} {i n : ℕ}, sccs[i]? = some comp → n ∈ comp →
      (numbering.nodeToScc.lookup n).getD 0 = i := fun hi hn => by
    rw [hnode hi hn, Option.getD_some]
  refine ⟨fun n => (numbering.nodeToScc.lookup n).getD 0, ?_⟩
  constructor
  · refine ⟨fun u v huv => ⟨mem_toFinset.mpr huv.1, mem_toFinset.mpr huv.2.1⟩, ?_⟩
    intro u hu v hv
    obtain ⟨i, cu, hi, hmu⟩ := hfind u hu
    obtain ⟨j, cv, hj, hmv⟩ := hfind v hv
    rw [hcomp hi hmu, hcomp hj hmv, ← h.same_iff cu (mem_of_getElem? hi) u hmu]
    constructor
    · rintro rfl
      rw [hi] at hj
      cases hj
      exact hmv
    · exact fun hmem => (hcomp hi hmem).symm.trans (hcomp hj hmv)
  · intro n hn
    obtain ⟨i, comp, hi, hmem⟩ := hfind n hn
    rw [hnode hi hmem, Option.getD_some]
  · intro n hn
    obtain ⟨i, comp, hi, hmem⟩ := hfind n hn
    rw [hcomp hi hmem]
    exact (List.getElem?_eq_some_iff.mp hi).1
  · intro i hi
    have hget : sccs[i]? = some sccs[i] := getElem?_eq_getElem hi
    have heq : ns.toFinset.filter (fun n => (numbering.nodeToScc.lookup n).getD 0 = i) = sccs[i] := by
      ext n
      rw [Finset.mem_filter]
      constructor
      · rintro ⟨hn, hni⟩
        obtain ⟨j, comp, hj, hmem⟩ := hfind n hn
        obtain rfl : j = i := (hcomp hj hmem).symm.trans hni
        rw [hget] at hj
        exact Option.some.inj hj ▸ hmem
      · intro hn
        exact ⟨mem_toFinset.mpr ((h.cover n).mpr ⟨_, getElem_mem hi, hn⟩), hcomp hget hn⟩
    rw [heq]
    exact hsize i hi

/-! ### The graph of the components -/

variable {cfg : Cfg} {nodes : Finset ℕ} {R : ℕ → ℕ → Prop} {count : ℕ} {numbering : Numbering}
  {comp : ℕ → ℕ}

/-- The dictionary has the edges between components that the given edges of the graph give. -/
def HasEdges (comp : ℕ → ℕ) (edges : ℕ → ℕ → Prop) (dag : Dict ℕ (Finset ℕ)) : Prop :=
  ∀ i j, j ∈ (dag.lookup i).getD ∅ ↔ Condensation.Edge edges comp i j

variable {dag : Dict ℕ (Finset ℕ)}

theorem HasEdges.congr {edges edges' : ℕ → ℕ → Prop}
    (h : HasEdges comp edges dag) (heq : ∀ u v, edges u v ↔ edges' u v) :
    HasEdges comp edges' dag := by
  have hfun : edges = edges' := funext₂ fun u v => propext (heq u v)
  exact hfun ▸ h

theorem HasEdges.add {edges : ℕ → ℕ → Prop} (h : HasEdges comp edges dag)
    (a b : ℕ) : HasEdges comp (fun u v => edges u v ∨ (u = a ∧ v = b))
      (if comp a ≠ comp b then addTo dag (comp a) (comp b) else dag) := by
  intro i j
  have hedge : Condensation.Edge (fun u v => edges u v ∨ (u = a ∧ v = b)) comp i j ↔
      Condensation.Edge edges comp i j ∨ (i ≠ j ∧ i = comp a ∧ j = comp b) := by
    constructor
    · rintro ⟨hne, u, v, huv | ⟨rfl, rfl⟩, rfl, rfl⟩
      · exact .inl ⟨hne, u, v, huv, rfl, rfl⟩
      · exact .inr ⟨hne, rfl, rfl⟩
    · rintro (⟨hne, u, v, huv, rfl, rfl⟩ | ⟨hne, rfl, rfl⟩)
      · exact ⟨hne, u, v, .inl huv, rfl, rfl⟩
      · exact ⟨hne, a, b, .inr ⟨rfl, rfl⟩, rfl, rfl⟩
  rw [hedge]
  split_ifs with hne
  · rw [mem_addTo, h i j]
    refine or_congr Iff.rfl ⟨?_, And.right⟩
    rintro ⟨rfl, rfl⟩
    exact ⟨hne, rfl, rfl⟩
  · rw [h i j]
    refine ⟨.inl, ?_⟩
    rintro (h | ⟨hij, rfl, rfl⟩)
    · exact h
    · exact absurd hij hne

theorem forwardDag_ends (h : Numbered nodes R count numbering comp) :
    Ends (forwardDag listing cfg nodes numbering.nodeToScc) (HasEdges comp fun u v =>
      u ∈ nodes ∧ v ∈ nodes ∧ v ∈ (cfg.lookup u).getD []) := by
  refine (Ends.foldlM (I := fun done => HasEdges comp fun u v =>
    u ∈ done ∧ v ∈ nodes ∧ v ∈ (cfg.lookup u).getD []) ?_ ?_).mono ?_
  · intro i j
    simp [Condensation.Edge]
  · intro done a ha dag hdag
    rw [mem_list] at ha
    refine .bind (.ofOption (h.node a ha) rfl) ?_
    rintro _ rfl
    refine (Ends.foldlM (I := fun vs => HasEdges comp fun u v =>
      (u ∈ done ∧ v ∈ nodes ∧ v ∈ (cfg.lookup u).getD []) ∨ (u = a ∧ v ∈ nodes ∧ v ∈ vs)) ?_ ?_).mono ?_
    · exact hdag.congr fun u v => by simp
    · intro vs b _ dag' hdag'
      unfold addForward
      split_ifs with hb
      · refine .bind (.ofOption (h.node b hb) rfl) ?_
        rintro _ rfl
        refine .pure ((hdag'.add a b).congr fun u v => ?_)
        simp only [mem_append, mem_singleton]
        constructor
        · rintro ((hold | ⟨rfl, hv, hvs⟩) | ⟨rfl, rfl⟩)
          · exact .inl hold
          · exact .inr ⟨rfl, hv, .inl hvs⟩
          · exact .inr ⟨rfl, hb, .inr rfl⟩
        · rintro (hold | ⟨rfl, hv, hvs | rfl⟩)
          · exact .inl (.inl hold)
          · exact .inl (.inr ⟨rfl, hv, hvs⟩)
          · exact .inr ⟨rfl, rfl⟩
      · refine .pure (hdag'.congr fun u v => ?_)
        simp only [mem_append, mem_singleton]
        refine or_congr Iff.rfl (and_congr Iff.rfl (and_congr_right fun hv => ?_))
        rw [or_iff_left]
        rintro rfl
        exact hb hv
    · intro dag' hdag'
      refine hdag'.congr fun u v => ?_
      simp only [mem_append, mem_singleton, or_and_right]
      refine or_congr Iff.rfl (and_congr_right ?_)
      rintro rfl
      rfl
  · intro dag hdag
    exact hdag.congr fun u v => by rw [mem_list]

theorem mem_backwardDag {i j : ℕ} :
    j ∈ ((backwardDag listing dag).lookup i).getD ∅ ↔ i ∈ (dag.lookup j).getD ∅ := by
  rw [backwardDag, mem_turned]
  cases dag.lookup j <;> simp

/-! ### Counting -/

theorem sumSizes_ends {sccSizes : Dict ℕ ℕ} {size : ℕ → ℕ} {ids : List ℕ}
    (h : ∀ s ∈ ids, sccSizes.lookup s = some (size s)) :
    Ends (sumSizes sccSizes ids) (· = (ids.map fun s => (size s : ℤ)).sum) := by
  refine Ends.foldlM (I := fun done total => total = (done.map fun s => (size s : ℤ)).sum) rfl ?_
  rintro done s hs _ rfl
  refine .bind (.ofOption (h s hs) rfl) ?_
  rintro _ rfl
  refine .pure ?_
  rw [map_append, sum_append, map_singleton, sum_singleton]

/-- The blocks other than `u` that `u` reaches. -/
noncomputable def reachedCount (nodes : Finset ℕ) (R : ℕ → ℕ → Prop) (u : ℕ) : ℕ :=
  {v | v ∈ nodes ∧ v ≠ u ∧ ReflTransGen R u v}.ncard

variable {dag : ℕ → List ℕ}

section
variable (h : Numbered nodes R count numbering comp)
include h

theorem reachableSize_ends (hdag : ∀ i j, j ∈ dag i ↔ Condensation.Edge R comp i j)
    (visited : Listing ℕ) {sccId : ℕ} (hid : sccId < count) :
    Ends (reachableSize dag visited numbering.sccSizes sccId) fun total =>
      ∀ u ∈ nodes, comp u = sccId → total = reachedCount nodes R u := by
  have hlt : ∀ i j, j ∈ dag i → j < count := by
    intro i j hij
    obtain ⟨-, u, v, huv, -, rfl⟩ := (hdag i j).mp hij
    exact h.lt v (h.names.mem u v huv).2
  have hmarks := @marks_foldl _ _ .back (dag sccId) { marked := ∅, work := [], taken := ∅ }
  unfold reachableSize
  generalize (dag sccId).foldl (mark .back) _ = first at hmarks
  have hwork : ∀ y, y ∈ first.work ↔ y ∈ dag sccId := fun y => by simp [hmarks.work]
  have hmarked : ∀ y, y ∈ first.marked ↔ y ∈ dag sccId := fun y => by simp [hmarks.marked]
  refine .bind (explore_ends (Finset.range count) (fun x _ y hy => Finset.mem_range.mpr (hlt x y hy))
    (fun w hw => Finset.mem_range.mpr (hlt sccId w ((hwork w).mp hw))) hmarks.taken
    fun w hw => (hmarked w).mpr ((hwork w).mp hw)) ?_
  intro found hfound
  -- the components that are found are those at the end of a path of the condensation
  have hfoundIff : ∀ j, j ∈ found.marked ↔ TransGen (Condensation.Edge R comp) sccId j := by
    intro j
    rw [hfound.mem_marked_iff fun w => (hmarked w).trans (hwork w).symm, TransGen.head'_iff]
    simp only [hwork, hdag]
  have hsizes : ∀ j ∈ visited.list found.marked,
      numbering.sccSizes.lookup j = some (nodes.filter (comp · = j)).card := by
    intro j hj
    obtain ⟨k, -, hlast⟩ := TransGen.tail'_iff.mp ((hfoundIff j).mp (visited.mem_list.mp hj))
    exact h.size j (hlt k j ((hdag k j).mpr hlast))
  refine .bind (sumSizes_ends hsizes) ?_
  rintro _ rfl
  refine .bind (.ofOption (h.size sccId hid) rfl) ?_
  rintro _ rfl
  refine .pure ?_
  rintro u hu rfl
  have hcount := h.names.sum_card_add hu hfoundIff
  have hlist : (visited.list found.marked).toFinset = found.marked := by
    ext j
    rw [mem_toFinset, mem_list]
  rw [← sum_toFinset _ (visited.nodup_list _), hlist, ← Nat.cast_sum, reachedCount]
  omega

theorem computeReachableSizesOnDag_ends (hdag : ∀ i j, j ∈ dag i ↔ Condensation.Edge R comp i j)
    (visited : ℕ → Listing ℕ) :
    Ends (computeReachableSizesOnDag dag visited numbering.sccSizes (List.range count)) fun reachable =>
      ∀ u ∈ nodes, reachable.lookup (comp u) = some (reachedCount nodes R u : ℤ) := by
  refine (Ends.foldlM (I := fun done reachable => ∀ u ∈ nodes, comp u ∈ done →
    reachable.lookup (comp u) = some (reachedCount nodes R u : ℤ)) ?_ ?_).mono ?_
  · exact fun u _ hu => absurd hu not_mem_nil
  · intro done sccId hmem reachable hdone
    have hid : sccId < count := by simpa using hmem
    refine .bind (reachableSize_ends h hdag (visited sccId) hid) fun total htotal => .pure ?_
    intro u hu hcomp
    by_cases heq : comp u = sccId
    · rw [heq, AList.lookup_insert, htotal u hu heq]
    · rw [AList.lookup_insert_ne heq]
      refine hdone u hu ((mem_append.mp hcomp).resolve_right fun hmem => heq ?_)
      exact mem_singleton.mp hmem
  · intro reachable hall u hu
    exact hall u hu (by simpa using h.lt u hu)

/-- The components are numbered for the graph with its edges turned round as well. -/
theorem Numbered.swap : Numbered nodes (fun u v => R v u) count numbering comp :=
  { h with names := h.names.swap }

end

theorem edge_swap {i j : ℕ} :
    Condensation.Edge (fun u v => R v u) comp i j ↔ Condensation.Edge R comp j i := by
  constructor
  · rintro ⟨hne, u, v, huv, rfl, rfl⟩
    exact ⟨hne.symm, v, u, huv, rfl, rfl⟩
  · rintro ⟨hne, u, v, huv, rfl, rfl⟩
    exact ⟨hne.symm, v, u, huv, rfl, rfl⟩

end

/-! ### The features -/

/-- An edge of the CFG between blocks. -/
def BlockEdge (cfg : Cfg) (blocks : Blocks K) (u v : ℕ) : Prop :=
  u ∈ blocks.map Prod.fst ∧ v ∈ blocks.map Prod.fst ∧ Edge cfg u v

/-- Every block is given the number of the other blocks that it reaches and the number of those that
    reach it, along edges between blocks. -/
theorem static_reachability_counts (listing : ReachabilitySet → Listing ℕ) (cfg : Cfg)
    (blocks : Blocks K) :
    Ends (computeStaticReachabilityFeatures listing cfg blocks) fun result =>
      List.Forall₂ (fun before after => after.1 = before.1 ∧ after.2.getRawAttr "static_descendant_count" =
          some ({v | v ∈ blocks.map Prod.fst ∧ v ≠ before.1 ∧
            ReflTransGen (BlockEdge cfg blocks) before.1 v}.ncard : K) ∧
        after.2.getRawAttr "static_ancestor_count" = some ({v | v ∈ blocks.map Prod.fst ∧ v ≠ before.1 ∧
            ReflTransGen (BlockEdge cfg blocks) v before.1}.ncard : K)) blocks result := by
  have hmem : ∀ n, n ∈ (blocks.map Prod.fst).toFinset ↔ n ∈ blocks.map Prod.fst :=
    fun n => mem_toFinset
  unfold computeStaticReachabilityFeatures
  simp only
  split_ifs with hempty
  · have hnil : blocks = [] := by simpa using hempty
    rw [hnil]
    exact .pure .nil
  refine .bind (computeSccsIterative_ends _ _ _) fun sccs hsccs => ?_
  obtain ⟨comp, hnumbered⟩ := numberSccs_numbered listing hsccs
  have hnodes : ((listing .nodes).list (blocks.map Prod.fst).toFinset).toFinset =
      (blocks.map Prod.fst).toFinset := by
    ext n
    rw [mem_toFinset, mem_list]
  have hedges : Within (fun n => (cfg.lookup n).getD [])
      ((listing .nodes).list (blocks.map Prod.fst).toFinset) = BlockEdge cfg blocks := by
    funext u v
    simp only [Within, BlockEdge, mem_list, hmem, mem_lookup_iff_edge]
  rw [hnodes, hedges] at hnumbered
  refine .bind (forwardDag_ends hnumbered) fun dag hdag => ?_
  have hforward : HasEdges comp (BlockEdge cfg blocks) dag :=
    hdag.congr fun u v => by simp only [BlockEdge, hmem, mem_lookup_iff_edge]
  have hbackward : ∀ i j, j ∈ ((backwardDag listing dag).lookup i).getD ∅ ↔
      Condensation.Edge (fun u v => BlockEdge cfg blocks v u) comp i j := fun i j => by
    rw [mem_backwardDag, edge_swap]
    exact hforward j i
  refine .bind (computeReachableSizesOnDag_ends hnumbered
    (fun i j => (listing (.forward i)).mem_list.trans (hforward i j)) _) fun descendants hdesc => ?_
  refine .bind (computeReachableSizesOnDag_ends hnumbered.swap
    (fun i j => (listing (.backward i)).mem_list.trans (hbackward i j)) _) fun ancestors hanc => ?_
  refine .pure (forall₂_map_right_iff.mpr (forall₂_same.mpr ?_))
  rintro ⟨ea, b⟩ hblock
  have hea : ea ∈ (blocks.map Prod.fst).toFinset := (hmem ea).mpr (mem_map_of_mem hblock)
  have hnames : ("static_descendant_count" : String) ≠ "static_ancestor_count" := by decide
  simp only [hnumbered.node ea hea, hdesc ea hea, hanc ea hea, Option.getD_some, Block.getRawAttr,
    Block.setRawAttr, AList.lookup_insert, AList.lookup_insert_ne hnames, reachedCount, hmem,
    Int.cast_natCast, Relation.reflTransGen_swap, and_self]

end Bofuzz.Extractor
