import Bofuzz.Extractor.LoopDominators

/-! The loops of a function and the marks they leave (`static_analysis/features_extractor.py`).

    The loops that the extractor recovers are the natural loops of the graph of the function, merged
    by header. The marks are described as a whole: the nesting of a block grows by the number of
    loops that it belongs to and is at least one on a cycle, and the blocks that are marked as
    boundaries are those of the abstract description. -/

namespace Bofuzz.Extractor
open Loop Worklist Relation FinishOrder List Run Listing AList LoopState

variable {G : FlowGraph ℕ} {succs preds : ℕ → List ℕ} {order : List ℕ} {dom : Dict ℕ (Finset ℕ)}

/-- The lists and the table are those of the graph. -/
structure Describes (G : FlowGraph ℕ) (succs preds : ℕ → List ℕ) (order : List ℕ) : Prop where
  mem_order : ∀ n, n ∈ order ↔ n ∈ G.blocks
  mem_succs : ∀ u v, v ∈ succs u ↔ G.edge u v
  mem_preds : ∀ u v, u ∈ preds v ↔ G.edge u v

/-! ### Recovering the loops -/

theorem mem_backEdges (h : Describes G succs preds order)
    (hdom : ∀ n ∈ G.blocks, ∀ d, d ∈ (dom.lookup n).getD ∅ ↔ d ∈ G.blocks ∧ G.Dominates d n)
    {e : ℕ × ℕ} : e ∈ backEdges succs dom order ↔ G.BackEdge e.1 e.2 := by
  obtain ⟨u, v⟩ := e
  unfold backEdges
  rw [mem_flatMap]
  constructor
  · rintro ⟨w, hw, hmem⟩
    obtain ⟨x, hx, heq⟩ := mem_map.mp hmem
    obtain ⟨rfl, rfl⟩ := Prod.mk.inj heq
    obtain ⟨hsucc, hin⟩ := mem_filter.mp hx
    have hedge := (h.mem_succs w x).mp hsucc
    exact ⟨hedge, ((hdom w (G.edge_mem hedge).1 x).mp (of_decide_eq_true hin)).2⟩
  · rintro ⟨hedge, hdominates⟩
    obtain ⟨hu, hv⟩ := G.edge_mem hedge
    refine ⟨u, (h.mem_order u).mpr hu, mem_map.mpr ⟨v, mem_filter.mpr ⟨?_, ?_⟩, rfl⟩⟩
    · exact (h.mem_succs u v).mpr hedge
    · exact decide_eq_true ((hdom u hu v).mpr ⟨hv, hdominates⟩)

theorem naturalLoop_ends (h : Describes G succs preds order) {latch header : ℕ}
    (hedge : G.edge latch header) :
    Ends (naturalLoop preds G.blocks latch header) fun nodes =>
      ∀ n, n ∈ nodes ↔ G.InLoop latch header n := by
  unfold naturalLoop
  split_ifs with heq
  · refine .pure fun n => ?_
    rw [Finset.mem_singleton, FlowGraph.InLoop, or_iff_left fun hloop => hloop.1 heq]
  refine .bind (explore_ends G.blocks ?_ ?_ rfl ?_) fun found hfound => .pure fun n => ?_
  · intro x _ y hy
    exact of_decide_eq_true (mem_filter.mp hy).2
  · exact forall_mem_singleton.mpr (G.edge_mem hedge).1
  · simp
  · have hlatch : latch ∈ found.taken := (hfound.taken latch).mpr ⟨latch, mem_singleton_self _, .refl⟩
    have hstep : ∀ {a b}, Step (fun n => (preds n).filter (· ∈ G.blocks)) {header, latch} a b ↔
        G.edge b a ∧ b ≠ header ∧ b ≠ latch := by
      intro a b
      simp only [Step, mem_filter, h.mem_preds, decide_eq_true_eq, Finset.mem_insert,
        Finset.mem_singleton, not_or]
      constructor
      · rintro ⟨⟨hba, -⟩, hne⟩
        exact ⟨hba, hne⟩
      · rintro ⟨hba, hne⟩
        exact ⟨⟨hba, (G.edge_mem hba).1⟩, hne⟩
    have htaken : n ∈ found.taken ↔ ReflTransGen (fun a b => G.edge b a ∧ b ≠ header) latch n := by
      constructor
      · intro hn
        obtain ⟨w, hw, hreach⟩ := (hfound.taken n).mp hn
        rw [mem_singleton.mp hw] at hreach
        exact hreach.lift id fun a b hab => ⟨(hstep.mp hab).1, (hstep.mp hab).2.1⟩
      · intro hreach
        induction hreach with
        | refl => exact hlatch
        | @tail a b _ hab ih =>
          by_cases hb : b = latch
          · exact hb ▸ hlatch
          · obtain ⟨w, hw, hreach⟩ := (hfound.taken a).mp ih
            exact (hfound.taken b).mpr ⟨w, hw, hreach.tail (hstep.mpr ⟨hab.1, hab.2, hb⟩)⟩
    rw [hfound.marked, FlowGraph.InLoop, Finset.mem_insert, Finset.mem_singleton, htaken, or_assoc]
    refine or_congr Iff.rfl ?_
    rw [and_iff_right heq, or_iff_right_iff_imp]
    rintro rfl
    exact .refl

/-- The loops of back edges, as the extractor recovers them. -/
structure Recovered (G : FlowGraph ℕ) (raws : List RawLoop) : Prop where
  nodes : ∀ raw ∈ raws, ∀ n, n ∈ raw.nodes ↔ G.InLoop raw.latch raw.header n
  edges : ∀ u v, (∃ raw ∈ raws, raw.latch = u ∧ raw.header = v) ↔ G.BackEdge u v

theorem rawLoops_ends (h : Describes G succs preds order) {edges : List (ℕ × ℕ)}
    (hedges : ∀ e, e ∈ edges ↔ G.BackEdge e.1 e.2) :
    Ends (rawLoops preds G.blocks edges) (Recovered G) := by
  refine (Ends.foldlM (I := fun done raws =>
    (∀ raw ∈ raws, ∀ n, n ∈ raw.nodes ↔ G.InLoop raw.latch raw.header n) ∧
      ∀ u v, (∃ raw ∈ raws, raw.latch = u ∧ raw.header = v) ↔ (u, v) ∈ done) ?_ ?_).mono ?_
  · simp
  · rintro done ⟨latch, header⟩ hmem raws ⟨hnodes, hdone⟩
    have hback : G.BackEdge latch header := (hedges (latch, header)).mp hmem
    refine .bind (naturalLoop_ends h hback.1) fun nodes hloop =>
      .pure ⟨forall_mem_concat.mpr ⟨hnodes, hloop⟩, fun u v => ?_⟩
    simp only [mem_append, mem_singleton, or_and_right, exists_or, exists_eq_left, hdone, Prod.mk.injEq]
    exact or_congr Iff.rfl (and_congr eq_comm eq_comm)
  · rintro raws ⟨hnodes, hdone⟩
    exact ⟨hnodes, fun u v => (hdone u v).trans (hedges (u, v))⟩

/-! ### Merging the loops -/

theorem mem_mergeLoops (raws : List RawLoop) {h n : ℕ} :
    (n ∈ ((mergeLoops raws).loops.lookup h).getD ∅ ↔ ∃ raw ∈ raws, raw.header = h ∧ n ∈ raw.nodes) ∧
    (n ∈ ((mergeLoops raws).latches.lookup h).getD ∅ ↔ ∃ raw ∈ raws, raw.header = h ∧ n = raw.latch) ∧
    (h ∈ (mergeLoops raws).loops ↔ ∃ raw ∈ raws, raw.header = h) := by
  have hloops : ∀ (m : MergedLoops) (raw : RawLoop), n ∈ ((mergeLoop m raw).loops.lookup h).getD ∅ ↔
      n ∈ (m.loops.lookup h).getD ∅ ∨ (raw.header = h ∧ n ∈ raw.nodes) := by
    intro m raw
    rw [mergeLoop, lookup_insert_ite]
    split_ifs with heq
    · subst heq
      simp
    · simp [Ne.symm heq]
  have hlatches : ∀ (m : MergedLoops) (raw : RawLoop), n ∈ ((mergeLoop m raw).latches.lookup h).getD ∅ ↔
      n ∈ (m.latches.lookup h).getD ∅ ∨ (raw.header = h ∧ n = raw.latch) := by
    intro m raw
    rw [mergeLoop, mem_addTo, eq_comm (a := h)]
  have hkeys : ∀ (m : MergedLoops) (raw : RawLoop), h ∈ (mergeLoop m raw).loops ↔
      h ∈ m.loops ∨ raw.header = h := by
    intro m raw
    rw [mergeLoop, mem_insert, or_comm, eq_comm (a := h)]
  unfold mergeLoops
  rw [foldl_iff (P := fun m : MergedLoops => n ∈ (m.loops.lookup h).getD ∅) hloops,
    foldl_iff (P := fun m : MergedLoops => n ∈ (m.latches.lookup h).getD ∅) hlatches,
    foldl_iff (P := fun m : MergedLoops => h ∈ m.loops) hkeys]
  simp

/-- The items of the merged loops are the headers with their loops. -/
theorem Recovered.mem_entries {raws : List RawLoop} (h : Recovered G raws) {header : ℕ}
    {nodes : Finset ℕ} :
    (⟨header, nodes⟩ : Sigma fun _ : ℕ => Finset ℕ) ∈ (mergeLoops raws).loops.entries ↔
      (∃ u, G.BackEdge u header) ∧ ∀ n, n ∈ nodes ↔ G.InLoopOf header n := by
  have hloop : ∀ n, n ∈ ((mergeLoops raws).loops.lookup header).getD ∅ ↔ G.InLoopOf header n := by
    intro n
    rw [(mem_mergeLoops raws).1]
    constructor
    · rintro ⟨raw, hraw, rfl, hn⟩
      exact ⟨raw.latch, (h.edges _ _).mp ⟨raw, hraw, rfl, rfl⟩, (h.nodes raw hraw n).mp hn⟩
    · rintro ⟨latch, hback, hn⟩
      obtain ⟨raw, hraw, rfl, rfl⟩ := (h.edges _ _).mpr hback
      exact ⟨raw, hraw, rfl, (h.nodes raw hraw n).mpr hn⟩
  have hkey : header ∈ (mergeLoops raws).loops ↔ ∃ u, G.BackEdge u header := by
    rw [(mem_mergeLoops raws (n := 0)).2.2]
    constructor
    · rintro ⟨raw, hraw, rfl⟩
      exact ⟨raw.latch, (h.edges _ _).mp ⟨raw, hraw, rfl, rfl⟩⟩
    · rintro ⟨u, hback⟩
      obtain ⟨raw, hraw, -, heq⟩ := (h.edges _ _).mpr hback
      exact ⟨raw, hraw, heq⟩
  rw [← mem_lookup_iff, ← hkey]
  constructor
  · intro hlookup
    refine ⟨lookup_isSome.mp (by rw [Option.mem_def.mp hlookup]; rfl), fun n => ?_⟩
    rw [← hloop, Option.mem_def.mp hlookup, Option.getD_some]
  · rintro ⟨hmem, hnodes⟩
    obtain ⟨stored, hstored⟩ := Option.isSome_iff_exists.mp (lookup_isSome.mpr hmem)
    have heq : stored = nodes := by
      ext n
      rw [hnodes, ← hloop, hstored, Option.getD_some]
    rw [Option.mem_def, hstored, heq]

theorem Recovered.mem_latches {raws : List RawLoop} (h : Recovered G raws) {header u : ℕ} :
    u ∈ ((mergeLoops raws).latches.lookup header).getD ∅ ↔ G.BackEdge u header := by
  rw [(mem_mergeLoops raws).2.1, ← h.edges]
  refine exists_congr fun raw => and_congr_right' ?_
  rw [eq_comm (a := u), and_comm]

/-! ### Marking the loops -/

section
variable {K : Type} [Field K]

/-- The nesting that is noted for a block. -/
def LoopState.depth (st : LoopState K) (y : ℕ) : ℕ := (st.nesting.lookup y).getD 0

/-- Exactly the blocks with `P` are marked as boundaries. -/
def Bounds (st : LoopState K) (P : ℕ → Prop) : Prop :=
  ∀ y, (P y → st.boundary.lookup y = some 1) ∧ (¬ P y → st.boundary.lookup y = none)

variable {st : LoopState K}

theorem Bounds.congr {P Q : ℕ → Prop} (h : Bounds st P) (hPQ : ∀ y, P y ↔ Q y) : Bounds st Q := by
  have heq : P = Q := funext fun y => propext (hPQ y)
  exact heq ▸ h

theorem Bounds.bound {P : ℕ → Prop} (h : Bounds st P) (n : ℕ) :
    Bounds (st.bound n) fun y => P y ∨ y = n := by
  intro y
  rw [LoopState.bound, lookup_insert_ite]
  split_ifs with heq
  · simp [heq]
  · simpa [heq] using h y

variable {P : ℕ → Prop}

theorem Bounds.boundExit (h : Bounds st P) (nodes : Finset ℕ) (n s : ℕ) :
    Bounds (boundExit nodes n st s) fun y => P y ∨ (s ∉ nodes ∧ (y = n ∨ y = s)) := by
  unfold Extractor.boundExit
  split_ifs with hs
  · exact h.congr fun y => by simp [hs]
  · exact ((h.bound n).bound s).congr fun y => by rw [and_iff_right hs, or_assoc]

theorem Bounds.boundEntry (h : Bounds st P) (nodes : Finset ℕ) (n p : ℕ) :
    Bounds (boundEntry nodes n st p) fun y => P y ∨ (p ∉ nodes ∧ y = n) := by
  unfold Extractor.boundEntry
  split_ifs with hp
  · exact h.congr fun y => by simp [hp]
  · exact (h.bound n).congr fun y => by rw [and_iff_right hp]

omit [Field K] in
theorem boundary_foldl_deepen : ∀ (ns : List ℕ) (st : LoopState K),
    (ns.foldl deepen st).boundary = st.boundary
  | [], _ => rfl
  | n :: ns, st => boundary_foldl_deepen ns (st.deepen n)

variable {y : ℕ}

omit [Field K] in
theorem depth_foldl_deepen : ∀ (ns : List ℕ) (st : LoopState K), ns.Nodup →
    (ns.foldl deepen st).depth y = st.depth y + if y ∈ ns then 1 else 0
  | [], _, _ => rfl
  | n :: ns, st, hnodup => by
    obtain ⟨hn, hrest⟩ := nodup_cons.mp hnodup
    rw [foldl_cons, depth_foldl_deepen ns _ hrest]
    by_cases heq : y = n
    · subst heq
      simp [depth, deepen, hn]
    · simp [depth, deepen, heq]

/-- Marking boundaries does not change the nesting. -/
theorem depth_bound (st : LoopState K) (n y : ℕ) : (st.bound n).depth y = st.depth y := rfl

theorem depth_boundExit (nodes : Finset ℕ) (n : ℕ) (st : LoopState K) (s y : ℕ) :
    (boundExit nodes n st s).depth y = st.depth y := by
  unfold boundExit
  split_ifs <;> rfl

theorem depth_boundEntry (nodes : Finset ℕ) (n : ℕ) (st : LoopState K) (p y : ℕ) :
    (boundEntry nodes n st p).depth y = st.depth y := by
  unfold boundEntry
  split_ifs <;> rfl

omit [Field K] in
theorem depth_foldl {α : Type} {step : LoopState K → α → LoopState K}
    (h : ∀ st a, (step st a).depth y = st.depth y) : ∀ (as : List α) (st : LoopState K),
    (as.foldl step st).depth y = st.depth y
  | [], _ => rfl
  | a :: as, st => by rw [foldl_cons, depth_foldl h as, h]

variable {listing : LoopSet → Listing ℕ} {latches : Dict ℕ (Finset ℕ)}

theorem depth_markLoop (st : LoopState K) (e : Sigma fun _ : ℕ => Finset ℕ) (y : ℕ) :
    (markLoop listing succs latches st e).depth y = st.depth y + if y ∈ e.2 then 1 else 0 := by
  unfold markLoop
  rw [depth_foldl fun st n => depth_foldl (fun st s => depth_boundExit e.2 n st s y) _ st]
  rw [depth_foldl fun st n => depth_bound st n y, depth_bound,
    depth_foldl_deepen _ st ((listing (.loop e.1)).nodup_list e.2)]
  simp only [mem_list]

/-- The blocks that a loop marks. -/
def LoopBounds (succs : ℕ → List ℕ) (latches : Dict ℕ (Finset ℕ)) (e : Sigma fun _ : ℕ => Finset ℕ)
    (y : ℕ) : Prop :=
  y = e.1 ∨ y ∈ (latches.lookup e.1).getD ∅ ∨
    ∃ n ∈ e.2, ∃ s ∈ succs n, s ∉ e.2 ∧ (y = n ∨ y = s)

theorem Bounds.markLoop (h : Bounds st P) (e : Sigma fun _ : ℕ => Finset ℕ) :
    Bounds (markLoop listing succs latches st e) fun y =>
      P y ∨ LoopBounds succs latches e y := by
  have hdeep : Bounds (((listing (.loop e.1)).list e.2).foldl deepen st) P := by
    intro y
    rw [boundary_foldl_deepen]
    exact h y
  have hlatches := foldl_grow (R := Bounds) (Q := fun n y => y = n) (fun st P n hst => hst.bound n)
    ((listing (.latches e.1)).list ((latches.lookup e.1).getD ∅)) _ _ (hdeep.bound e.1)
  have hexits := foldl_grow (R := Bounds)
    (Q := fun n y => ∃ s ∈ succs n, s ∉ e.2 ∧ (y = n ∨ y = s))
    (fun st P n hst => foldl_grow (R := Bounds) (Q := fun s y => s ∉ e.2 ∧ (y = n ∨ y = s))
      (fun st P s hst => hst.boundExit e.2 n s) (succs n) st P hst)
    ((listing (.loop e.1)).list e.2) _ _ hlatches
  refine hexits.congr fun y => ?_
  simp [mem_list, LoopBounds, or_assoc]

theorem depth_markLoops : ∀ (es : List (Sigma fun _ : ℕ => Finset ℕ)) (st : LoopState K),
    (es.foldl (markLoop listing succs latches) st).depth y =
      st.depth y + (es.filter fun e => y ∈ e.2).length
  | [], _ => rfl
  | e :: es, st => by
    rw [foldl_cons, depth_markLoops es, depth_markLoop, filter_cons]
    by_cases hy : y ∈ e.2
    · simp only [hy, if_true, decide_true, length_cons]
      omega
    · simp [hy]

variable {raws : List RawLoop}

theorem Recovered.exists_entry (h : Recovered G raws) {header u : ℕ} (hback : G.BackEdge u header) :
    ∃ nodes, (⟨header, nodes⟩ : Sigma fun _ : ℕ => Finset ℕ) ∈
      (mergeLoops raws).loops.entries ∧ ∀ n, n ∈ nodes ↔ G.InLoopOf header n := by
  obtain ⟨raw, hraw, -, heq⟩ := (h.edges _ _).mpr hback
  have hkey : header ∈ (mergeLoops raws).loops := (mem_mergeLoops raws (n := 0)).2.2.mpr ⟨raw, hraw, heq⟩
  obtain ⟨nodes, hnodes⟩ := Option.isSome_iff_exists.mp (lookup_isSome.mpr hkey)
  have hmem := mem_lookup_iff.mp (Option.mem_def.mpr hnodes)
  exact ⟨nodes, hmem, (h.mem_entries.mp hmem).2⟩

/-- The nesting grows by the number of loops that a block belongs to. -/
theorem Recovered.depth_markLoops (h : Recovered G raws) (st : LoopState K) (y : ℕ) :
    ((mergeLoops raws).loops.entries.foldl (markLoop listing succs (mergeLoops raws).latches) st).depth y =
        st.depth y + {header | G.InLoopOf header y}.ncard := by
  rw [Extractor.depth_markLoops]
  have hkeys : (((mergeLoops raws).loops.entries.filter fun e => y ∈ e.2).map Sigma.fst).Nodup :=
    List.NodupKeys.sublist filter_sublist (mergeLoops raws).loops.nodupKeys
  have hset : {header | G.InLoopOf header y} =
      (((mergeLoops raws).loops.entries.filter fun e => y ∈ e.2).map Sigma.fst).toFinset := by
    ext header
    simp only [Set.mem_ofPred_eq, coe_toFinset, mem_map, mem_filter, decide_eq_true_eq]
    constructor
    · intro hin
      obtain ⟨latch, hback, -⟩ := id hin
      obtain ⟨nodes, hmem, hnodes⟩ := h.exists_entry hback
      exact ⟨⟨header, nodes⟩, ⟨hmem, (hnodes y).mpr hin⟩, rfl⟩
    · rintro ⟨⟨k, nodes⟩, ⟨hmem, hy⟩, rfl⟩
      exact ((h.mem_entries.mp hmem).2 y).mp hy
  rw [hset, Set.ncard_coe_finset, toFinset_card_of_nodup hkeys, length_map]

theorem Recovered.loopBounds_iff (h : Recovered G raws) (hsuccs : ∀ u v, v ∈ succs u ↔ G.edge u v)
    (y : ℕ) :
    (∃ e ∈ (mergeLoops raws).loops.entries, LoopBounds succs (mergeLoops raws).latches e y) ↔
      (∃ u, G.BackEdge u y) ∨ (∃ v, G.BackEdge y v) ∨
      (∃ header s, G.InLoopOf header y ∧ G.edge y s ∧ ¬ G.InLoopOf header s) ∨
      (∃ header m, G.InLoopOf header m ∧ G.edge m y ∧ ¬ G.InLoopOf header y) := by
  constructor
  · rintro ⟨⟨header, nodes⟩, hmem, hbound⟩
    obtain ⟨⟨u, hback⟩, hnodes⟩ := h.mem_entries.mp hmem
    rcases hbound with rfl | hlatch | ⟨n, hn, s, hs, hout, rfl | rfl⟩
    · exact .inl ⟨u, hback⟩
    · exact .inr (.inl ⟨header, h.mem_latches.mp hlatch⟩)
    · exact .inr (.inr (.inl ⟨header, s, (hnodes _).mp hn, (hsuccs _ _).mp hs, mt (hnodes s).mpr hout⟩))
    · exact .inr (.inr (.inr ⟨header, n, (hnodes n).mp hn, (hsuccs _ _).mp hs, mt (hnodes _).mpr hout⟩))
  · rintro (⟨u, hback⟩ | ⟨v, hback⟩ | ⟨header, s, hin, hedge, hout⟩ | ⟨header, m, hin, hedge, hout⟩)
    · obtain ⟨nodes, hmem, -⟩ := h.exists_entry hback
      exact ⟨_, hmem, .inl rfl⟩
    · obtain ⟨nodes, hmem, -⟩ := h.exists_entry hback
      exact ⟨_, hmem, .inr (.inl (h.mem_latches.mpr hback))⟩
    · obtain ⟨latch, hback, -⟩ := id hin
      obtain ⟨nodes, hmem, hnodes⟩ := h.exists_entry hback
      exact ⟨_, hmem, .inr (.inr ⟨y, (hnodes y).mpr hin, s, (hsuccs y s).mpr hedge,
        mt (hnodes s).mp hout, .inl rfl⟩)⟩
    · obtain ⟨latch, hback, -⟩ := id hin
      obtain ⟨nodes, hmem, hnodes⟩ := h.exists_entry hback
      exact ⟨_, hmem, .inr (.inr ⟨m, (hnodes m).mpr hin, y, (hsuccs m y).mpr hedge,
        mt (hnodes y).mp hout, .inr rfl⟩)⟩

/-! ### Marking the components -/

theorem depth_markSccBlock (scc : Finset ℕ) (st : LoopState K) (n y : ℕ) :
    (markSccBlock succs preds scc st n).depth y = if y = n then max (st.depth y) 1 else st.depth y := by
  unfold markSccBlock
  rw [depth_foldl fun st s => depth_boundExit scc n st s y,
    depth_foldl fun st p => depth_boundEntry scc n st p y]
  rw [depth, atLeastOne, lookup_insert_ite]
  split_ifs with heq
  · subst heq
    rfl
  · rfl

omit [Field K] in
/-- Raising to at least one, for each of the items that ask for it. -/
theorem depth_foldl_max {α : Type} {step : LoopState K → α → LoopState K} {p : α → Prop}
    [DecidablePred p]
    (h : ∀ st a, (step st a).depth y = if p a then max (st.depth y) 1 else st.depth y) :
    ∀ (as : List α) (st : LoopState K), (as.foldl step st).depth y =
      if ∃ a ∈ as, p a then max (st.depth y) 1 else st.depth y
  | [], _ => by simp
  | a :: as, st => by
    rw [foldl_cons, depth_foldl_max h as, h]
    by_cases ha : p a
    · simp [ha]
    · simp [ha]

theorem depth_markScc (f : ℕ) (st : LoopState K) (scc : Finset ℕ × ℕ) (y : ℕ) :
    (markScc listing f succs preds st scc).depth y =
      if isLoopScc succs scc.1 = true ∧ y ∈ scc.1 then max (st.depth y) 1 else st.depth y := by
  unfold markScc
  split_ifs with hloop hy hy
  · rw [depth_foldl_max (p := (y = ·)) (fun st n => depth_markSccBlock scc.1 st n y),
      if_pos ⟨y, (mem_list _).mpr hy.2, rfl⟩]
  · rw [depth_foldl_max (p := (y = ·)) (fun st n => depth_markSccBlock scc.1 st n y), if_neg]
    rintro ⟨n, hn, rfl⟩
    exact hy ⟨hloop, (mem_list _).mp hn⟩
  · exact absurd hy.1 hloop
  · rfl

/-- The blocks that a component marks. -/
def SccBounds (succs preds : ℕ → List ℕ) (scc : Finset ℕ) (y : ℕ) : Prop :=
  ∃ n ∈ scc, (∃ p ∈ preds n, p ∉ scc ∧ y = n) ∨ ∃ s ∈ succs n, s ∉ scc ∧ (y = n ∨ y = s)

theorem Bounds.markScc (h : Bounds st P) (f : ℕ) (scc : Finset ℕ × ℕ) :
    Bounds (markScc listing f succs preds st scc) fun y =>
      P y ∨ (isLoopScc succs scc.1 = true ∧ SccBounds succs preds scc.1 y) := by
  have hblock : ∀ (st : LoopState K) (P : ℕ → Prop) (n : ℕ), Bounds st P →
      Bounds (markSccBlock succs preds scc.1 st n) fun y => P y ∨
        ((∃ p ∈ preds n, p ∉ scc.1 ∧ y = n) ∨ ∃ s ∈ succs n, s ∉ scc.1 ∧ (y = n ∨ y = s)) := by
    intro st P n hst
    have hentries := foldl_grow (R := Bounds) (Q := fun p y => p ∉ scc.1 ∧ y = n)
      (fun st P p hst => hst.boundEntry scc.1 n p) (preds n) (st.atLeastOne n) P hst
    have hexits := foldl_grow (R := Bounds) (Q := fun s y => s ∉ scc.1 ∧ (y = n ∨ y = s))
      (fun st P s hst => hst.boundExit scc.1 n s) (succs n) _ _ hentries
    exact hexits.congr fun y => or_assoc
  unfold Extractor.markScc
  split_ifs with hloop
  · refine (foldl_grow (R := Bounds) (Q := fun n y =>
      (∃ p ∈ preds n, p ∉ scc.1 ∧ y = n) ∨ ∃ s ∈ succs n, s ∉ scc.1 ∧ (y = n ∨ y = s)) hblock
      ((listing (.scc f scc.2)).list scc.1) st P h).congr fun y => ?_
    simp only [mem_list, SccBounds, hloop, true_and]
  · exact h.congr fun y => by simp [hloop]

section
variable {sccs : List (Finset ℕ)} (h : AreSccs succs order sccs) (hwithin : Within succs order = G.edge)
include h hwithin

/-- The components that count as loops are those on cycles. -/
theorem isLoopScc_iff {scc : Finset ℕ} (hscc : scc ∈ sccs) {n : ℕ} (hn : n ∈ scc) :
    isLoopScc succs scc = true ↔ G.Cyclic n := by
  have hsame : ∀ m, m ∈ scc ↔ Mutual G.edge n m := hwithin ▸ h.same_iff scc hscc n hn
  have horder : ∀ m ∈ scc, m ∈ order := fun m hm => (h.cover m).mpr ⟨scc, hscc, hm⟩
  unfold isLoopScc
  rw [decide_eq_true_eq]
  constructor
  · rintro (hcard | ⟨hcard, m, hm, hself⟩)
    · obtain ⟨m, hm, hne⟩ := Finset.exists_mem_ne hcard n
      obtain ⟨hto, hback⟩ := (hsame m).mp hm
      rcases reflTransGen_iff_eq_or_transGen.mp hto with heq | htrans
      · exact absurd heq hne
      · exact htrans.trans_left hback
    · rw [Finset.card_le_one.mp hcard.le m hm n hn] at hself
      have hedge : G.edge n n := hwithin ▸ ⟨horder n hn, horder n hn, hself⟩
      exact .single hedge
  · intro hcyclic
    obtain ⟨k, hedge, hrest⟩ := TransGen.head'_iff.mp hcyclic
    have hk : k ∈ scc := (hsame k).mpr ⟨.single hedge, hrest⟩
    by_cases heq : k = n
    · subst heq
      have hself : Within succs order k k := hwithin ▸ hedge
      by_cases hcard : 1 < scc.card
      · exact .inl hcard
      · have hpos : 0 < scc.card := Finset.card_pos.mpr ⟨k, hn⟩
        exact .inr ⟨by omega, k, hn, hself.2.2⟩
    · exact .inl (Finset.one_lt_card.mpr ⟨k, hk, n, hn, heq⟩)

theorem exists_loopScc {n : ℕ} (hcyclic : G.Cyclic n) :
    ∃ scc ∈ sccs.zipIdx, scc.1 ∈ sccs ∧ n ∈ scc.1 ∧
    isLoopScc succs scc.1 = true := by
  obtain ⟨k, hedge, -⟩ := TransGen.head'_iff.mp hcyclic
  rw [← hwithin] at hedge
  obtain ⟨scc, hscc, hn⟩ := (h.cover n).mp hedge.1
  obtain ⟨i, hi⟩ := mem_iff_getElem?.mp hscc
  exact ⟨(scc, i), mem_zipIdx_iff_getElem?.mpr hi, hscc, hn, (isLoopScc_iff h hwithin hscc hn).mpr hcyclic⟩

open Classical in
/-- A block on a cycle is nested at least once. -/
theorem depth_markSccs (f : ℕ) (st : LoopState K) (y : ℕ) :
    (sccs.zipIdx.foldl (markScc listing f succs preds) st).depth y =
      max (st.depth y) (if G.Cyclic y then 1 else 0) := by
  rw [depth_foldl_max (p := fun scc : Finset ℕ × ℕ => isLoopScc succs scc.1 = true ∧ y ∈ scc.1)
    fun st scc => depth_markScc f st scc y]
  have hiff : (∃ scc ∈ sccs.zipIdx, isLoopScc succs scc.1 = true ∧ y ∈ scc.1) ↔ G.Cyclic y := by
    constructor
    · rintro ⟨scc, hmem, hloop, hy⟩
      exact (isLoopScc_iff h hwithin (fst_mem_of_mem_zipIdx hmem) hy).mp hloop
    · intro hcyclic
      obtain ⟨scc, hmem, -, hy, hloop⟩ := exists_loopScc h hwithin hcyclic
      exact ⟨scc, hmem, hloop, hy⟩
  by_cases hcyclic : G.Cyclic y
  · rw [if_pos (hiff.mpr hcyclic), if_pos hcyclic]
  · rw [if_neg (mt hiff.mp hcyclic), if_neg hcyclic, Nat.max_zero]

theorem sccBounds_iff (hdescribes : Describes G succs preds order) (y : ℕ) :
    (∃ scc ∈ sccs.zipIdx, isLoopScc succs scc.1 = true ∧ SccBounds succs preds scc.1 y) ↔
      (∃ m, G.Cyclic y ∧ G.edge m y ∧ ¬ Mutual G.edge m y) ∨
      (∃ s, G.Cyclic y ∧ G.edge y s ∧ ¬ Mutual G.edge y s) ∨
      (∃ m, G.Cyclic m ∧ G.edge m y ∧ ¬ Mutual G.edge m y) := by
  have hsame : ∀ scc ∈ sccs, ∀ n ∈ scc, ∀ m, m ∈ scc ↔ Mutual G.edge n m := hwithin ▸ h.same_iff
  constructor
  · rintro ⟨scc, hmem, hloop, n, hn, hbound⟩
    have hscc := fst_mem_of_mem_zipIdx hmem
    have hcyclic := (isLoopScc_iff h hwithin hscc hn).mp hloop
    rcases hbound with ⟨p, hp, hout, rfl⟩ | ⟨s, hs, hout, heq⟩
    · refine .inl ⟨p, hcyclic, (hdescribes.mem_preds p y).mp hp, fun hmutual => hout ?_⟩
      exact (hsame scc.1 hscc y hn p).mpr hmutual.symm
    have hedge := (hdescribes.mem_succs n s).mp hs
    have hnot : ¬ Mutual G.edge n s := mt (hsame scc.1 hscc n hn s).mpr hout
    rcases heq with rfl | rfl
    · exact .inr (.inl ⟨s, hcyclic, hedge, hnot⟩)
    · exact .inr (.inr ⟨n, hcyclic, hedge, hnot⟩)
  · rintro (⟨m, hcyclic, hedge, hnot⟩ | ⟨s, hcyclic, hedge, hnot⟩ | ⟨m, hcyclic, hedge, hnot⟩)
    all_goals obtain ⟨scc, hmem, hscc, hn, hloop⟩ := exists_loopScc h hwithin hcyclic
    · refine ⟨scc, hmem, hloop, y, hn, .inl ⟨m, (hdescribes.mem_preds m y).mpr hedge, ?_, rfl⟩⟩
      exact fun hm => hnot ((hsame scc.1 hscc y hn m).mp hm).symm
    · exact ⟨scc, hmem, hloop, y, hn, .inr ⟨s, (hdescribes.mem_succs y s).mpr hedge,
        mt (hsame scc.1 hscc y hn s).mp hnot, .inl rfl⟩⟩
    · exact ⟨scc, hmem, hloop, m, hn, .inr ⟨y, (hdescribes.mem_succs m y).mpr hedge,
        mt (hsame scc.1 hscc m hn y).mp hnot, .inr rfl⟩⟩

end

/-! ### One function -/

open Classical in
theorem loopsOfFunction_ends (listing : LoopSet → Listing ℕ) (cfg : Cfg) (st : LoopState K) (f : ℕ)
    (bbs : Finset ℕ) (hst : Bounds st P) :
    Ends (loopsOfFunction listing cfg st ⟨f, bbs⟩) fun st' =>
      (∀ y, st'.depth y = max (st.depth y + {h | (entered listing cfg f bbs).InLoopOf h y}.ncard)
        (if (entered listing cfg f bbs).Cyclic y then 1 else 0)) ∧
      Bounds st' fun y => P y ∨ (entered listing cfg f bbs).Boundary y := by
  set G := entered listing cfg f bbs with hG
  have hdescribes : Describes G (funcSuccs listing cfg f bbs) (funcPreds listing cfg f bbs)
      (blockOrder listing f bbs) :=
    ⟨mem_blockOrder listing f bbs, mem_funcSuccs listing cfg f bbs, mem_funcPreds listing cfg f bbs⟩
  unfold loopsOfFunction
  split_ifs with hempty
  · have hnoEdge : ∀ u v, ¬ G.edge u v := by
      intro u v hedge
      have hbbs : bbs = ∅ := hempty
      have hu : u ∈ bbs := (G.edge_mem hedge).1
      rw [hbbs] at hu
      exact absurd hu (Finset.notMem_empty u)
    have hnoBack : ∀ u v, ¬ G.BackEdge u v := fun u v hback => hnoEdge u v hback.1
    have hnoLoop : ∀ h y, ¬ G.InLoopOf h y := fun h y ⟨u, hback, _⟩ => hnoBack u h hback
    have hnoCycle : ∀ y, ¬ G.Cyclic y := by
      intro y hcyclic
      obtain ⟨k, hedge, -⟩ := TransGen.head'_iff.mp hcyclic
      exact hnoEdge y k hedge
    refine .pure ⟨fun y => ?_, hst.congr fun y => ?_⟩
    · simp [hnoLoop, hnoCycle]
    · simp [FlowGraph.Boundary, hnoEdge, hnoBack, hnoLoop, hnoCycle]
  · refine .bind (dominators_ends (mem_funcPreds listing cfg f bbs) (mem_blockOrder listing f bbs))
      fun dom hdom => ?_
    have hdom' : ∀ n ∈ G.blocks, ∀ d, d ∈ (dom.lookup n).getD ∅ ↔ d ∈ G.blocks ∧ G.Dominates d n := by
      intro n hn d
      obtain ⟨ds, hlookup, hds⟩ := hdom n hn
      rw [hlookup, Option.getD_some]
      exact hds d
    refine .bind (rawLoops_ends hdescribes fun e => mem_backEdges hdescribes hdom') fun raws hraws => ?_
    have hwithin : Within (funcSuccs listing cfg f bbs) (blockOrder listing f bbs) = G.edge := by
      funext u v
      refine propext ⟨fun huv => (hdescribes.mem_succs u v).mp huv.2.2, fun huv => ?_⟩
      obtain ⟨hu, hv⟩ := G.edge_mem huv
      exact ⟨(hdescribes.mem_order u).mpr hu, (hdescribes.mem_order v).mpr hv,
        (hdescribes.mem_succs u v).mpr huv⟩
    refine .bind (computeSccsIterative_ends _ _ _) fun sccs hsccs => .pure ⟨fun y => ?_, ?_⟩
    · rw [depth_markSccs hsccs hwithin, hraws.depth_markLoops]
    · have hloops : Bounds ((mergeLoops raws).loops.entries.foldl
          (markLoop listing (funcSuccs listing cfg f bbs) (mergeLoops raws).latches) st) fun y =>
          P y ∨ ∃ e ∈ (mergeLoops raws).loops.entries,
            LoopBounds (funcSuccs listing cfg f bbs) (mergeLoops raws).latches e y :=
        foldl_grow (R := Bounds) (fun st P e hst => hst.markLoop e) _ st P hst
      refine (foldl_grow (R := Bounds) (fun st P scc hst => hst.markScc f scc) sccs.zipIdx _ _
        hloops).congr fun y => ?_
      rw [hraws.loopBounds_iff hdescribes.mem_succs, sccBounds_iff hsccs hwithin hdescribes]
      simp only [FlowGraph.Boundary, or_assoc]

end

end Bofuzz.Extractor
