import Bofuzz.Extractor.NaturalLoops
import Mathlib.Order.Lattice.Nat

/-! Which blocks are in loops (`static_analysis/features_extractor.py`).

    The loop features of a block are those of the graph of its function, whatever the order in which
    blocks, successors and predecessors come. Blocks on cycles are nested at least once. So are
    blocks that no root reaches and their successors, on a cycle or not: all blocks count as their
    dominators, so every edge from one of them is taken for a back edge. -/

namespace Bofuzz.Extractor
open Loop Relation List AList

/-! ### The graph of a function -/

/-- The blocks of a function. -/
def functionBlocks (funcOfBb : Dict ℕ ℕ) (f : ℕ) : Finset ℕ :=
  funcOfBb.keys.toFinset.filter fun b => funcOfBb.lookup b = some f

variable {funcOfBb : Dict ℕ ℕ}

theorem mem_functionBlocks {f b : ℕ} :
    b ∈ functionBlocks funcOfBb f ↔ funcOfBb.lookup b = some f := by
  unfold functionBlocks
  rw [Finset.mem_filter, mem_toFinset, and_iff_right_iff_imp]
  intro hlookup
  exact lookup_isSome.mp (by rw [hlookup]; rfl)

variable (cfg : Cfg)

/-- The graph of a set of blocks. It is entered at the blocks without predecessors, and at the first
    address if there is none. -/
def functionGraph (bbs : Finset ℕ) : FlowGraph ℕ where
  blocks := bbs
  edge := FuncEdge cfg bbs
  root n := n ∈ bbs ∧ ((∀ u, ¬ FuncEdge cfg bbs u n) ∨
    (∀ m ∈ bbs, ∃ u, FuncEdge cfg bbs u m) ∧ ∀ m ∈ bbs, n ≤ m)
  edge_mem := @FuncEdge.mem cfg bbs
  root_mem h := h.1
  root_of_noPred hmem hnone := ⟨hmem, .inl hnone⟩

theorem eq_min_iff {bbs : Finset ℕ} {n : ℕ} (hn : n ∈ bbs) :
    n = bbs.min.untopD 0 ↔ ∀ m ∈ bbs, n ≤ m := by
  obtain ⟨k, hk⟩ := Finset.min_of_mem hn
  rw [hk, WithTop.untopD_coe]
  constructor
  · rintro rfl m hm
    exact Finset.min_le_of_eq hm hk
  · intro hleast
    exact le_antisymm (hleast k (Finset.mem_of_min hk)) (Finset.min_le_of_eq hn hk)

variable (listing : LoopSet → Listing ℕ)

/-- Which of the blocks without predecessors is taken for the entry does not matter. -/
theorem entered_eq (f : ℕ) (bbs : Finset ℕ) :
    entered listing cfg f bbs = functionGraph cfg bbs := by
  have hnil : ∀ b, funcPreds listing cfg f bbs b = [] ↔ ∀ u, ¬ FuncEdge cfg bbs u b := by
    intro b
    rw [eq_nil_iff_forall_not_mem]
    exact forall_congr' fun u => not_congr (mem_funcPreds listing cfg f bbs u b)
  have hroot : ∀ n, (entered listing cfg f bbs).root n ↔ (functionGraph cfg bbs).root n := by
    intro n
    refine and_congr_right fun hn => ?_
    unfold entryBlock
    split
    · next b rest hfilter =>
      obtain ⟨hb, hpred⟩ := mem_filter.mp (hfilter ▸ mem_cons_self (a := b) (l := rest))
      have hnone := (hnil b).mp (of_decide_eq_true hpred)
      have hbmem := (mem_blockOrder listing f bbs b).mp hb
      constructor
      · rintro (rfl | h)
        · exact .inl hnone
        · exact .inl h
      · rintro (h | ⟨hall, -⟩)
        · exact .inr h
        · obtain ⟨u, hedge⟩ := hall b hbmem
          exact absurd hedge (hnone u)
    · next hfilter =>
      have hall : ∀ m ∈ bbs, ∃ u, FuncEdge cfg bbs u m := by
        intro m hm
        have hpred := filter_eq_nil_iff.mp hfilter m ((mem_blockOrder listing f bbs m).mpr hm)
        rw [decide_eq_true_eq, hnil] at hpred
        exact not_forall_not.mp hpred
      rw [eq_min_iff hn, and_iff_right hall, or_comm]
  exact FlowGraph.ext rfl rfl (funext fun n => propext (hroot n))

/-! ### The features of all functions -/

theorem mem_funcToBbs {f b : ℕ} :
    b ∈ ((funcToBbs funcOfBb).lookup f).getD ∅ ↔ funcOfBb.lookup b = some f := by
  refine (Run.foldl_iff (P := fun bbs : Dict ℕ (Finset ℕ) => b ∈ (bbs.lookup f).getD ∅)
    (Q := fun e : Sigma fun _ : ℕ => ℕ => f = e.2 ∧ b = e.1) (fun _ _ => mem_addTo) _ _).trans ?_
  constructor
  · rintro (h | ⟨⟨k, g⟩, hmem, rfl, rfl⟩)
    · simp at h
    · exact mem_lookup_iff.mpr hmem
  · intro hlookup
    exact .inr ⟨⟨b, f⟩, mem_lookup_iff.mp hlookup, rfl, rfl⟩

theorem mem_entries_funcToBbs {e : Sigma fun _ : ℕ => Finset ℕ}
    (he : e ∈ (funcToBbs funcOfBb).entries) :
    e.2 = functionBlocks funcOfBb e.1 := by
  have hlookup := mem_lookup_iff.mpr he
  ext b
  rw [mem_functionBlocks, ← mem_funcToBbs, Option.mem_def.mp hlookup, Option.getD_some]

theorem exists_entry_funcToBbs {f b : ℕ} (hb : funcOfBb.lookup b = some f) :
    ∃ e ∈ (funcToBbs funcOfBb).entries, e.1 = f := by
  cases hlookup : (funcToBbs funcOfBb).lookup f with
  | none =>
    have hmem := mem_funcToBbs.mpr hb
    rw [hlookup] at hmem
    exact absurd hmem (Finset.notMem_empty b)
  | some bbs => exact ⟨⟨f, bbs⟩, mem_lookup_iff.mp hlookup, rfl⟩

section
variable (cfg : Cfg) (funcOfBb : Dict ℕ ℕ)

/-- The graph of the function of a block. -/
def graphOf (f : ℕ) : FlowGraph ℕ :=
  functionGraph cfg (functionBlocks funcOfBb f)

/-- The nesting of a block in the graph of its function. -/
noncomputable def blockNesting (y : ℕ) : ℕ :=
  match funcOfBb.lookup y with
  | none => 0
  | some f => (graphOf cfg funcOfBb f).nesting y

/-- The block is a boundary in the graph of its function. -/
def BlockBoundary (y : ℕ) : Prop :=
  ∃ f, funcOfBb.lookup y = some f ∧ (graphOf cfg funcOfBb f).Boundary y

section
variable {K : Type} [Field K]

/-- The marks after some of the functions. -/
structure Marked (done : List (Sigma fun _ : ℕ => Finset ℕ)) (st : LoopState K) : Prop where
  depth : ∀ e ∈ done, ∀ y, funcOfBb.lookup y = some e.1 →
    st.depth y = (graphOf cfg funcOfBb e.1).nesting y
  other : ∀ y, (∀ e ∈ done, funcOfBb.lookup y ≠ some e.1) → st.depth y = 0
  bounds : Bounds st fun y => ∃ e ∈ done, (graphOf cfg funcOfBb e.1).Boundary y

theorem loopsOfFunctions_ends (funcOfBb : Dict ℕ ℕ) :
    Ends ((funcToBbs funcOfBb).entries.foldlM (loopsOfFunction listing cfg)
      { nesting := ∅, boundary := ∅ }) (Marked (K := K) cfg funcOfBb (funcToBbs funcOfBb).entries) := by
  refine Ends.foldlM_split (I := Marked cfg funcOfBb) ?_ ?_
  · exact ⟨by simp, fun y _ => rfl, fun y => by simp⟩
  · intro done e rest st hsplit hst
    have hentry : e ∈ (funcToBbs funcOfBb).entries :=
      hsplit ▸ mem_append_right done mem_cons_self
    have hgraph : entered listing cfg e.1 e.2 = graphOf cfg funcOfBb e.1 := by
      rw [entered_eq, graphOf, mem_entries_funcToBbs hentry]
    have hnew : ∀ e' ∈ done, e'.1 ≠ e.1 := by
      have hkeys := (funcToBbs funcOfBb).nodupKeys
      rw [hsplit, List.NodupKeys, List.keys, map_append, map_cons] at hkeys
      have hdisjoint := (nodup_append.mp hkeys).2.2
      intro e' he'
      exact hdisjoint _ (mem_map_of_mem he') _ mem_cons_self
    have hmem : ∀ {y}, y ∈ (graphOf cfg funcOfBb e.1).blocks ↔ funcOfBb.lookup y = some e.1 :=
      mem_functionBlocks
    -- a block of another function is on no loop and no cycle of this one
    have hother : ∀ {y}, funcOfBb.lookup y ≠ some e.1 →
        {h | (graphOf cfg funcOfBb e.1).InLoopOf h y} = ∅ ∧ ¬ (graphOf cfg funcOfBb e.1).Cyclic y := by
      intro y hy
      refine ⟨Set.eq_empty_of_forall_notMem fun h hh => hy (hmem.mp ?_), fun hc => hy (hmem.mp hc.mem)⟩
      exact FlowGraph.InLoopOf.mem hh
    refine (loopsOfFunction_ends listing cfg st e.1 e.2 hst.bounds).mono ?_
    rintro st' ⟨hdepth, hbounds⟩
    rw [hgraph] at hdepth hbounds
    constructor
    · intro e' he' y hy
      rw [hdepth]
      rcases mem_append.mp he' with he' | he'
      · have hne : funcOfBb.lookup y ≠ some e.1 := by
          rw [hy]
          exact fun heq => hnew e' he' (Option.some.inj heq)
        rw [(hother hne).1, if_neg (hother hne).2, Set.ncard_empty, hst.depth e' he' y hy]
        simp
      · rw [mem_singleton.mp he'] at hy ⊢
        have hzero : st.depth y = 0 := hst.other y fun e' he' heq =>
          hnew e' he' (Option.some.inj (heq.symm.trans hy))
        rw [hzero, Nat.zero_add]
        rfl
    · intro y hy
      have hne := hy e (mem_append_right done (mem_singleton_self e))
      rw [hdepth, (hother hne).1, if_neg (hother hne).2, Set.ncard_empty,
        hst.other y fun e' he' => hy e' (mem_append_left _ he')]
      rfl
    · refine hbounds.congr fun y => ?_
      simp [or_and_right, exists_or]

open Classical in
/-- The block with the features that the graph of its function gives it. -/
structure Featured (before after : ℕ × Block K) : Prop where
  address : after.1 = before.1
  depth : after.2.getRawAttr "loop_nesting_depth" = some (blockNesting cfg funcOfBb before.1 : K)
  flag : after.2.getRawAttr "loop_boundary_flag" =
    some (if BlockBoundary cfg funcOfBb before.1 then 1 else 0)

/-- Every block gets the features that the graph of its function gives it. -/
theorem computeLoopFeatures_ends (blocks : Blocks K) (funcOfBb : Dict ℕ ℕ) :
    Ends (computeLoopFeatures listing cfg blocks funcOfBb) fun result =>
      List.Forall₂ (Featured cfg funcOfBb) blocks result := by
  classical
  refine .bind (loopsOfFunctions_ends listing cfg funcOfBb) fun st hst => .pure ?_
  refine forall₂_map_right_iff.mpr (forall₂_same.mpr ?_)
  rintro ⟨ea, b⟩ -
  have hnames : ("loop_nesting_depth" : String) ≠ "loop_boundary_flag" := by decide
  have hdepth : (st.nesting.lookup ea).getD 0 = blockNesting cfg funcOfBb ea := by
    unfold blockNesting
    cases hfunc : funcOfBb.lookup ea with
    | none => exact hst.other ea fun e _ => by rw [hfunc]; simp
    | some f =>
      obtain ⟨e, he, rfl⟩ := exists_entry_funcToBbs hfunc
      exact hst.depth e he ea hfunc
  have hboundary : (∃ e ∈ (funcToBbs funcOfBb).entries, (graphOf cfg funcOfBb e.1).Boundary ea) ↔
      BlockBoundary cfg funcOfBb ea := by
    constructor
    · rintro ⟨e, -, hbound⟩
      exact ⟨e.1, mem_functionBlocks.mp hbound.mem, hbound⟩
    · rintro ⟨f, hfunc, hbound⟩
      obtain ⟨e, he, rfl⟩ := exists_entry_funcToBbs hfunc
      exact ⟨e, he, hbound⟩
  have hflag : (st.boundary.lookup ea).getD 0 =
      if BlockBoundary cfg funcOfBb ea then (1 : K) else 0 := by
    by_cases hbound : BlockBoundary cfg funcOfBb ea
    · rw [(hst.bounds ea).1 (hboundary.mpr hbound), if_pos hbound, Option.getD_some]
    · rw [(hst.bounds ea).2 (mt hboundary.mp hbound), if_neg hbound, Option.getD_none]
  refine ⟨rfl, ?_, ?_⟩
  · simp only [Block.getRawAttr, Block.setRawAttr, lookup_insert_ne hnames, lookup_insert,
      Option.getD_some, hdepth]
  · simp only [Block.getRawAttr, Block.setRawAttr, lookup_insert, Option.getD_some, hflag]

end

/-! ### Loops and cycles -/

/-- The block lies on a cycle of its function's graph. -/
def OnCycle (n : ℕ) : Prop :=
  ∃ f, funcOfBb.lookup n = some f ∧ TransGen (FuncEdge cfg (functionBlocks funcOfBb f)) n n

/-- No root of its function reaches the block, or it is the successor of such a block. -/
def Stray (n : ℕ) : Prop :=
  ∃ f, funcOfBb.lookup n = some f ∧ (¬ (graphOf cfg funcOfBb f).Reachable n ∨
    ∃ u, ¬ (graphOf cfg funcOfBb f).Reachable u ∧ (graphOf cfg funcOfBb f).edge u n)

end

theorem one_le_blockNesting_iff {cfg : Cfg} {n : ℕ} :
    1 ≤ blockNesting cfg funcOfBb n ↔ OnCycle cfg funcOfBb n ∨ Stray cfg funcOfBb n := by
  unfold blockNesting OnCycle Stray
  cases hfunc : funcOfBb.lookup n with
  | none => simp
  | some f =>
    simp only [Option.some.injEq, exists_eq_left']
    exact FlowGraph.one_le_nesting_iff.trans
      (FlowGraph.exists_inLoopOf_iff (mem_functionBlocks.mpr hfunc))

/-- Exactly the blocks on cycles are nested at least once, if and only if the blocks that no root
    reaches and their successors are on cycles. -/
theorem loop_membership_iff (listing : LoopSet → Listing ℕ) (cfg : Cfg) (blocks : Blocks ℚ)
    (funcOfBb : Dict ℕ ℕ) :
    Ends (computeLoopFeatures listing cfg blocks funcOfBb) fun result =>
      (∀ b ∈ result, (∃ depth, b.2.getRawAttr "loop_nesting_depth" = some depth ∧ 1 ≤ depth) ↔
        OnCycle cfg funcOfBb b.1) ↔
      ∀ b ∈ blocks, Stray cfg funcOfBb b.1 → OnCycle cfg funcOfBb b.1 := by
  refine (computeLoopFeatures_ends listing cfg blocks funcOfBb).mono fun result hresult => ?_
  have hblock : ∀ {before after : ℕ × Block ℚ}, Featured cfg funcOfBb before after →
      ((∃ depth, after.2.getRawAttr "loop_nesting_depth" = some depth ∧ 1 ≤ depth) ↔
        OnCycle cfg funcOfBb before.1 ∨ Stray cfg funcOfBb before.1) := by
    intro before after hafter
    rw [hafter.depth, ← one_le_blockNesting_iff]
    simp
  induction hresult with
  | nil => simp
  | cons hhead _ ih =>
    simp only [forall_mem_cons, ih]
    refine and_congr ?_ Iff.rfl
    rw [hblock hhead, hhead.address]
    exact or_iff_left_iff_imp

namespace Demo

/-- Sets are iterated from small to large. -/
def ascending : Listing ℕ where
  list s := (List.range (s.sup id + 1)).filter (· ∈ s)
  mem_list {s x} := by
    rw [List.mem_filter, List.mem_range, decide_eq_true_eq, and_iff_right_iff_imp]
    exact fun hx => Nat.lt_succ_of_le (Finset.le_sup (f := id) hx)
  nodup_list _ := List.nodup_range.filter _

/-- The entry has no successor; an unreachable block repeats itself and then leaves. -/
def strayCfg : Cfg := AList.insert 1 [] (AList.insert 2 [2, 3] (AList.insert 3 [] ∅))

def strayFunc : Dict ℕ ℕ := AList.insert 1 1 (AList.insert 2 1 (AList.insert 3 1 ∅))

def strayBlocks : Blocks ℚ := [(1, {}), (2, {}), (3, {})]

end Demo

/-- The block behind an unreachable loop is on no cycle and counts as nested. -/
theorem straight_line_counts_as_loop :
    Ends (computeLoopFeatures (fun _ => Demo.ascending) Demo.strayCfg Demo.strayBlocks Demo.strayFunc)
      (fun result => result.map (fun b => (b.1, b.2.getRawAttr "loop_nesting_depth")) =
        [(1, some 0), (2, some 2), (3, some 1)]) ∧
    ¬ OnCycle Demo.strayCfg Demo.strayFunc 3 := by
  constructor
  · obtain ⟨result, hrun, hdepths⟩ : ∃ result, computeLoopFeatures (fun _ => Demo.ascending)
        Demo.strayCfg Demo.strayBlocks Demo.strayFunc 4 = some result ∧
        result.map (fun b => (b.1, b.2.getRawAttr "loop_nesting_depth")) =
          [(1, some 0), (2, some 2), (3, some 1)] :=
      Option.map_eq_some_iff.mp (by decide +kernel)
    refine ((computeLoopFeatures_ends _ _ _ _).eq_of_eq_some hrun).mono ?_
    rintro _ rfl
    exact hdepths
  · rintro ⟨f, -, hcycle⟩
    obtain ⟨v, hedge, -⟩ := TransGen.head'_iff.mp hcycle
    have hsuccs : Demo.strayCfg.lookup 3 = some [] := by decide
    obtain ⟨succs, hlookup, hv⟩ := hedge.2.2
    rw [hsuccs] at hlookup
    cases hlookup
    cases hv

/-! ### Other iteration orders and load addresses -/

variable (c : ℕ)

/-- The entries of a dictionary of addresses with all addresses `c` higher. -/
def rebaseDict {β : Type} (g : β → β) (d : Dict ℕ β) : Dict ℕ β where
  entries := d.entries.map fun e => ⟨e.1 + c, g e.2⟩
  nodupKeys := by
    have hkeys : (d.entries.map fun e => (⟨e.1 + c, g e.2⟩ : Sigma fun _ : ℕ => β)).keys =
        d.entries.keys.map (· + c) := by
      simp only [List.keys, List.map_map]
      rfl
    rw [List.NodupKeys, hkeys]
    exact d.nodupKeys.map (add_left_injective c)

/-- The CFG of the binary loaded `c` higher. -/
def rebaseCfg (cfg : Cfg) : Cfg := rebaseDict c (List.map (· + c)) cfg

/-- The functions of the blocks of the binary loaded `c` higher. -/
def rebaseFuncs (funcOfBb : Dict ℕ ℕ) : Dict ℕ ℕ := rebaseDict c (· + c) funcOfBb

/-- The blocks of the binary loaded `c` higher. -/
def rebaseBlocks {K : Type} (blocks : Blocks K) : Blocks K :=
  blocks.map fun b => (b.1 + c, b.2)

theorem lookup_rebaseDict {β : Type} {c : ℕ} {g : β → β} {d : Dict ℕ β} {k : ℕ} {y : β} :
    (rebaseDict c g d).lookup k = some y ↔ ∃ j x, d.lookup j = some x ∧ j + c = k ∧ g x = y := by
  rw [← Option.mem_def, mem_lookup_iff]
  unfold rebaseDict
  rw [mem_map]
  constructor
  · rintro ⟨⟨j, x⟩, he, heq⟩
    cases heq
    exact ⟨j, x, mem_lookup_iff.mpr he, rfl, rfl⟩
  · rintro ⟨j, x, hlookup, rfl, rfl⟩
    exact ⟨⟨j, x⟩, mem_lookup_iff.mp hlookup, rfl⟩

section
variable {c : ℕ} {cfg : Cfg} {funcOfBb : Dict ℕ ℕ} {f n : ℕ}

theorem lookup_rebaseFuncs :
    (rebaseFuncs c funcOfBb).lookup (n + c) = (funcOfBb.lookup n).map (· + c) := by
  ext f
  rw [rebaseFuncs, lookup_rebaseDict, Option.map_eq_some_iff]
  simp

theorem functionBlocks_rebase : functionBlocks (rebaseFuncs c funcOfBb) (f + c) =
    (functionBlocks funcOfBb f).map (addRightEmbedding c) := by
  ext a
  rw [mem_functionBlocks, rebaseFuncs, lookup_rebaseDict, Finset.mem_map]
  simp [mem_functionBlocks]

theorem edge_rebaseCfg {u v : ℕ} : Edge (rebaseCfg c cfg) (u + c) (v + c) ↔ Edge cfg u v := by
  constructor
  · rintro ⟨succs, hlookup, hv⟩
    obtain ⟨j, succs, hlookup', hj, rfl⟩ := lookup_rebaseDict.mp hlookup
    cases Nat.add_right_cancel hj
    exact ⟨succs, hlookup', (mem_map_of_injective (add_left_injective c)).mp hv⟩
  · rintro ⟨succs, hlookup, hv⟩
    exact ⟨succs.map (· + c), lookup_rebaseDict.mpr ⟨u, succs, hlookup, rfl, rfl⟩, mem_map_of_mem hv⟩

theorem graphOf_rebase : graphOf (rebaseCfg c cfg) (rebaseFuncs c funcOfBb) (f + c) =
    (graphOf cfg funcOfBb f).map (addRightEmbedding c) := by
  have hmem : ∀ a, a ∈ functionBlocks (rebaseFuncs c funcOfBb) (f + c) ↔
      ∃ n ∈ functionBlocks funcOfBb f, n + c = a := by
    intro a
    rw [functionBlocks_rebase, Finset.mem_map]
    rfl
  have hedge : ∀ a b,
      FuncEdge (rebaseCfg c cfg) (functionBlocks (rebaseFuncs c funcOfBb) (f + c)) a b ↔
      ∃ u v, FuncEdge cfg (functionBlocks funcOfBb f) u v ∧ u + c = a ∧ v + c = b := by
    intro a b
    constructor
    · rintro ⟨ha, hb, hab⟩
      obtain ⟨u, hu, rfl⟩ := (hmem a).mp ha
      obtain ⟨v, hv, rfl⟩ := (hmem b).mp hb
      exact ⟨u, v, ⟨hu, hv, edge_rebaseCfg.mp hab⟩, rfl, rfl⟩
    · rintro ⟨u, v, ⟨hu, hv, huv⟩, rfl, rfl⟩
      exact ⟨(hmem _).mpr ⟨u, hu, rfl⟩, (hmem _).mpr ⟨v, hv, rfl⟩, edge_rebaseCfg.mpr huv⟩
  refine FlowGraph.ext functionBlocks_rebase (funext₂ fun a b => propext (hedge a b)) ?_
  ext a
  simp only [graphOf, functionGraph, FlowGraph.map, hmem, hedge, addRightEmbedding_apply]
  constructor
  · rintro ⟨⟨n, hn, rfl⟩, hroot⟩
    refine ⟨n, ⟨hn, ?_⟩, rfl⟩
    simpa using hroot
  · rintro ⟨n, ⟨hn, hroot⟩, rfl⟩
    refine ⟨⟨n, hn, rfl⟩, ?_⟩
    simpa using hroot

theorem blockNesting_rebase : blockNesting (rebaseCfg c cfg) (rebaseFuncs c funcOfBb) (n + c) =
    blockNesting cfg funcOfBb n := by
  unfold blockNesting
  rw [lookup_rebaseFuncs]
  cases funcOfBb.lookup n with
  | none => rfl
  | some f =>
    simp only [Option.map_some, graphOf_rebase]
    exact FlowGraph.nesting_map (φ := addRightEmbedding c)

theorem blockBoundary_rebase : BlockBoundary (rebaseCfg c cfg) (rebaseFuncs c funcOfBb) (n + c) ↔
    BlockBoundary cfg funcOfBb n := by
  unfold BlockBoundary
  rw [lookup_rebaseFuncs]
  cases funcOfBb.lookup n with
  | none => simp
  | some f =>
    simp only [Option.map_some, Option.some.injEq, exists_eq_left', graphOf_rebase]
    exact FlowGraph.boundary_map_iff (φ := addRightEmbedding c)

end

/-- The block has the loop features of the other one, whose address is `c` higher. -/
def SameLoopFeatures {K : Type} [Field K] (b b' : ℕ × Block K) : Prop :=
  b'.1 = b.1 + c ∧
  b'.2.getRawAttr "loop_nesting_depth" = b.2.getRawAttr "loop_nesting_depth" ∧
  b'.2.getRawAttr "loop_boundary_flag" = b.2.getRawAttr "loop_boundary_flag"

/-- Blocks with the same place in their graphs get the same features. -/
theorem sameLoopFeatures_ends {K : Type} [Field K] {c : ℕ} {cfg cfg' : Cfg}
    {funcOfBb' : Dict ℕ ℕ}
    (hnesting : ∀ y, blockNesting cfg' funcOfBb' (y + c) = blockNesting cfg funcOfBb y)
    (hboundary : ∀ y, BlockBoundary cfg' funcOfBb' (y + c) ↔ BlockBoundary cfg funcOfBb y)
    (listing : LoopSet → Listing ℕ) {blocks result : Blocks K}
    (hresult : List.Forall₂ (Featured cfg funcOfBb) blocks result) :
    Ends (computeLoopFeatures listing cfg' (rebaseBlocks c blocks) funcOfBb')
      (fun result' => List.Forall₂ (SameLoopFeatures c) result result') := by
  classical
  refine (computeLoopFeatures_ends listing cfg' _ funcOfBb').mono fun result' hresult' => ?_
  have hsame : ∀ {before after after' : ℕ × Block K}, Featured cfg funcOfBb before after →
      Featured cfg' funcOfBb' (before.1 + c, before.2) after' → SameLoopFeatures c after after' := by
    intro before after after' h h'
    refine ⟨?_, ?_, ?_⟩
    · rw [h'.address, h.address]
    · rw [h'.depth, h.depth, hnesting]
    · rw [h'.flag, h.flag]
      exact congrArg some (if_congr (hboundary before.1) rfl rfl)
  have hshift := forall₂_map_left_iff.mp hresult'
  clear hresult'
  induction hresult generalizing result' with
  | nil =>
    cases hshift
    exact .nil
  | cons hhead _ ih =>
    cases hshift with
    | cons hhead' htail' => exact .cons (hsame hhead hhead') (ih _ htail')

/-- The loop features depend neither on the order in which sets are iterated nor on the address
    where the binary is loaded. -/
theorem loop_features_order_independent {K : Type} [Field K]
    (listing listing' : LoopSet → Listing ℕ) (cfg : Cfg) (blocks : Blocks K) (funcOfBb : Dict ℕ ℕ)
    (c : ℕ) :
    Ends (computeLoopFeatures listing cfg blocks funcOfBb) fun result =>
      Ends (computeLoopFeatures listing' cfg blocks funcOfBb)
        (fun result' => List.Forall₂ (SameLoopFeatures 0) result result') ∧
      Ends (computeLoopFeatures listing' (rebaseCfg c cfg) (rebaseBlocks c blocks) (rebaseFuncs c funcOfBb))
        (fun result' => List.Forall₂ (SameLoopFeatures c) result result') := by
  refine (computeLoopFeatures_ends listing cfg blocks funcOfBb).mono fun result hresult => ⟨?_, ?_⟩
  · have hblocks : rebaseBlocks 0 blocks = blocks := map_id blocks
    have hsame := sameLoopFeatures_ends (c := 0) (fun _ => rfl) (fun _ => Iff.rfl) listing' hresult
    rwa [hblocks] at hsame
  · exact sameLoopFeatures_ends (fun _ => blockNesting_rebase) (fun _ => blockBoundary_rebase) listing'
      hresult

end Bofuzz.Extractor
