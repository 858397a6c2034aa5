import Bofuzz.Extractor.LoopFeatures
import Bofuzz.Lib.FlowGraph
import Mathlib.Algebra.Order.BigOperators.Group.Finset

/-! The dominators that the extractor computes (`static_analysis/features_extractor.py`).

    The table begins with all blocks for every block but the entry and only ever loses blocks, so
    the loop ends. It never loses a dominator, and when nothing changes any more it solves the
    data-flow equations, of which the dominators are the greatest solution. -/

namespace Bofuzz.Extractor
open Loop Relation List

/-! ### The graph of a function -/

/-- An edge of the CFG inside a function. -/
def FuncEdge (cfg : Cfg) (bbs : Finset ℕ) (u v : ℕ) : Prop := u ∈ bbs ∧ v ∈ bbs ∧ Edge cfg u v

theorem FuncEdge.mem {cfg : Cfg} {bbs : Finset ℕ} {u v : ℕ} (h : FuncEdge cfg bbs u v) :
    u ∈ bbs ∧ v ∈ bbs := ⟨h.1, h.2.1⟩

/-- The graph of a function, entered at the given block and at those without predecessors. -/
def flowGraph (cfg : Cfg) (bbs : Finset ℕ) (entry : ℕ) : FlowGraph ℕ where
  blocks := bbs
  edge := FuncEdge cfg bbs
  root n := n ∈ bbs ∧ (n = entry ∨ ∀ u, ¬ FuncEdge cfg bbs u n)
  edge_mem := @FuncEdge.mem cfg bbs
  root_mem h := h.1
  root_of_noPred hmem hnone := ⟨hmem, .inr hnone⟩

section
variable {cfg : Cfg} {bbs : Finset ℕ} {order : List ℕ} {u v : ℕ}

theorem mem_addFuncEdge (a : ℕ) (g : FuncGraph) (b : ℕ) :
    (v ∈ ((addFuncEdge bbs a g b).succs.lookup u).getD ∅ ↔
      v ∈ (g.succs.lookup u).getD ∅ ∨ (b ∈ bbs ∧ u = a ∧ v = b)) ∧
    (u ∈ ((addFuncEdge bbs a g b).preds.lookup v).getD ∅ ↔
      u ∈ (g.preds.lookup v).getD ∅ ∨ (b ∈ bbs ∧ u = a ∧ v = b)) := by
  unfold addFuncEdge
  split_ifs with hb
  · simp only [mem_addTo, hb, true_and]
    exact or_congr Iff.rfl and_comm
  · simp [hb]

theorem mem_funcGraph (horder : ∀ n, n ∈ order ↔ n ∈ bbs) :
    (v ∈ ((funcGraph cfg bbs order).succs.lookup u).getD ∅ ↔ FuncEdge cfg bbs u v) ∧
    (u ∈ ((funcGraph cfg bbs order).preds.lookup v).getD ∅ ↔ FuncEdge cfg bbs u v) := by
  have hsum : (∃ a ∈ order, ∃ b ∈ (cfg.lookup a).getD [], b ∈ bbs ∧ u = a ∧ v = b) ↔
      FuncEdge cfg bbs u v := by
    constructor
    · rintro ⟨a, ha, b, hb, hmem, rfl, rfl⟩
      exact ⟨(horder u).mp ha, hmem, mem_lookup_iff_edge.mp hb⟩
    · rintro ⟨hu, hv, hedge⟩
      exact ⟨u, (horder u).mpr hu, v, mem_lookup_iff_edge.mpr hedge, hv, rfl, rfl⟩
  have hsuccs : ∀ (g : FuncGraph) (a : ℕ),
      v ∈ ((((cfg.lookup a).getD []).foldl (addFuncEdge bbs a) g).succs.lookup u).getD ∅ ↔
        v ∈ (g.succs.lookup u).getD ∅ ∨ ∃ b ∈ (cfg.lookup a).getD [], b ∈ bbs ∧ u = a ∧ v = b :=
    fun g a => Run.foldl_iff (P := fun g : FuncGraph => v ∈ (g.succs.lookup u).getD ∅)
      (fun g b => (mem_addFuncEdge a g b).1) _ g
  have hpreds : ∀ (g : FuncGraph) (a : ℕ),
      u ∈ ((((cfg.lookup a).getD []).foldl (addFuncEdge bbs a) g).preds.lookup v).getD ∅ ↔
        u ∈ (g.preds.lookup v).getD ∅ ∨ ∃ b ∈ (cfg.lookup a).getD [], b ∈ bbs ∧ u = a ∧ v = b :=
    fun g a => Run.foldl_iff (P := fun g : FuncGraph => u ∈ (g.preds.lookup v).getD ∅)
      (fun g b => (mem_addFuncEdge a g b).2) _ g
  unfold funcGraph
  rw [Run.foldl_iff (P := fun g : FuncGraph => v ∈ (g.succs.lookup u).getD ∅) hsuccs,
    Run.foldl_iff (P := fun g : FuncGraph => u ∈ (g.preds.lookup v).getD ∅) hpreds, hsum]
  simp

end

/-! ### The equations -/

section
variable {cfg : Cfg} {bbs : Finset ℕ} {entry : ℕ} {order : List ℕ} {preds : ℕ → List ℕ}
  {dom : Dict ℕ (Finset ℕ)} {s : Dominating} {n d : ℕ}

theorem mem_foldl_inter : ∀ (ps : List ℕ) (meet : Finset ℕ),
    d ∈ ps.foldl (fun meet q => meet ∩ (dom.lookup q).getD ∅) meet ↔
      d ∈ meet ∧ ∀ q ∈ ps, d ∈ (dom.lookup q).getD ∅
  | [], meet => by simp
  | p :: ps, meet => by
    rw [foldl_cons, mem_foldl_inter ps, Finset.mem_inter, forall_mem_cons, and_assoc]

theorem mem_newDom : d ∈ newDom preds dom n ↔
    d = n ∨ (preds n ≠ [] ∧ ∀ q ∈ preds n, d ∈ (dom.lookup q).getD ∅) := by
  unfold newDom
  split
  · next hnil => simp [hnil]
  · next p ps hcons =>
    rw [Finset.mem_insert, mem_foldl_inter, hcons, forall_mem_cons]
    simp

/-- The table has what dominates, and every entry has what the equation gives for it. -/
structure DomSound (cfg : Cfg) (bbs : Finset ℕ) (entry : ℕ) (preds : ℕ → List ℕ)
    (dom : Dict ℕ (Finset ℕ)) : Prop where
  known : ∀ n ∈ bbs, dom.lookup n = some ((dom.lookup n).getD ∅)
  sub : ∀ n ∈ bbs, (dom.lookup n).getD ∅ ⊆ bbs
  first : entry ∈ bbs → (dom.lookup entry).getD ∅ = {entry}
  post : ∀ n ∈ bbs, n ≠ entry → newDom preds dom n ⊆ (dom.lookup n).getD ∅
  upper : ∀ n ∈ bbs, ∀ d ∈ bbs, (flowGraph cfg bbs entry).Dominates d n → d ∈ (dom.lookup n).getD ∅

/-- The entries of the table, counted. -/
def domSize (bbs : Finset ℕ) (dom : Dict ℕ (Finset ℕ)) : ℕ :=
  ∑ n ∈ bbs, ((dom.lookup n).getD ∅).card

theorem newDom_mono {dom' : Dict ℕ (Finset ℕ)}
    (h : ∀ q ∈ preds n, (dom'.lookup q).getD ∅ ⊆ (dom.lookup q).getD ∅) :
    newDom preds dom' n ⊆ newDom preds dom n := by
  intro d hd
  rw [mem_newDom] at hd ⊢
  exact hd.imp_right fun ⟨hne, hall⟩ => ⟨hne, fun q hq => h q hq (hall q hq)⟩

theorem lookup_insert_getD {m : ℕ} {x : Finset ℕ} :
    ((dom.insert n x).lookup m).getD ∅ = if m = n then x else (dom.lookup m).getD ∅ := by
  rw [lookup_insert_ite]
  split_ifs <;> rfl

/-- Every block begins with all blocks, the entry with itself. -/
theorem lookup_initDom (horder : ∀ n, n ∈ order ↔ n ∈ bbs) (hn : n ∈ bbs) :
    (initDom entry bbs order).lookup n = some (if n = entry then {entry} else bbs) := by
  have hfilter : initDom entry bbs order = (order.filter (· ≠ entry)).foldl
      (fun dom m => dom.insert m bbs) ((∅ : Dict ℕ (Finset ℕ)).insert entry {entry}) := by
    simp only [initDom, foldl_filter, decide_eq_true_eq]
  rw [hfilter, lookup_foldl_insert, lookup_insert_ite]
  by_cases hne : n = entry
  · simp [hne]
  · simp [hne, (horder n).mpr hn]

section
variable (hpreds : ∀ u v, u ∈ preds v ↔ FuncEdge cfg bbs u v)
include hpreds

/-- The dominators satisfy the equations. -/
theorem DomSound.mem_newDom_of_dominates (h : DomSound cfg bbs entry preds dom) (hn : n ∈ bbs)
    (hd : d ∈ bbs) (hdom : (flowGraph cfg bbs entry).Dominates d n) : d ∈ newDom preds dom n := by
  rw [mem_newDom]
  by_cases heq : d = n
  · exact .inl heq
  refine .inr ⟨fun hnil => heq ?_, fun q hq => ?_⟩
  · refine hdom.eq_of_root ⟨hn, .inr fun u hedge => ?_⟩
    have hu := (hpreds u n).mpr hedge
    rw [hnil] at hu
    exact absurd hu not_mem_nil
  · have hedge := (hpreds q n).mp hq
    exact h.upper q hedge.1 d hd ((hdom.eq_or_pred hedge).resolve_left heq)

theorem DomSound.insert (h : DomSound cfg bbs entry preds dom) (hn : n ∈ bbs) (hne : n ≠ entry) :
    DomSound cfg bbs entry preds (dom.insert n (newDom preds dom n)) ∧
      ∀ m ∈ bbs, ((dom.insert n (newDom preds dom n)).lookup m).getD ∅ ⊆ (dom.lookup m).getD ∅ := by
  have hless : ∀ m ∈ bbs,
      ((dom.insert n (newDom preds dom n)).lookup m).getD ∅ ⊆ (dom.lookup m).getD ∅ := by
    intro m hm
    rw [lookup_insert_getD]
    split_ifs with heq
    · exact heq ▸ h.post n hn hne
    · exact Finset.Subset.refl _
  have hnew : ∀ m, newDom preds (dom.insert n (newDom preds dom n)) m ⊆ newDom preds dom m :=
    fun m => newDom_mono fun q hq => hless q ((hpreds q m).mp hq).1
  refine ⟨?_, hless⟩
  constructor
  · intro m hm
    rw [lookup_insert_ite]
    split_ifs
    · rfl
    · exact h.known m hm
  · exact fun m hm => (hless m hm).trans (h.sub m hm)
  · intro hentry
    rw [lookup_insert_getD, if_neg hne.symm]
    exact h.first hentry
  · intro m hm hme
    rw [lookup_insert_getD]
    split_ifs with heq
    · exact heq ▸ hnew m
    · exact (hnew m).trans (h.post m hm hme)
  · intro m hm d hd hdom
    rw [lookup_insert_getD]
    split_ifs with heq
    · subst heq
      exact h.mem_newDom_of_dominates hpreds hm hd hdom
    · exact h.upper m hm d hd hdom

/-! ### The loop -/

/-- What a pass over some of the blocks has done. -/
structure Passed (cfg : Cfg) (bbs : Finset ℕ) (entry : ℕ) (preds : ℕ → List ℕ)
    (before : Dict ℕ (Finset ℕ)) (done : List ℕ) (s : Dominating) : Prop where
  sound : DomSound cfg bbs entry preds s.dom
  le : domSize bbs s.dom ≤ domSize bbs before
  lt : s.changed = true → domSize bbs s.dom < domSize bbs before
  same : s.changed = false → s.dom = before ∧ ∀ n ∈ done, n ≠ entry →
    before.lookup n = some (newDom preds before n)

theorem Passed.updateDom {before : Dict ℕ (Finset ℕ)} {done : List ℕ}
    (h : Passed cfg bbs entry preds before done s) (hn : n ∈ bbs) :
    Passed cfg bbs entry preds before (done ++ [n]) (updateDom entry preds s n) := by
  have hdone : ∀ {t : Dict ℕ (Finset ℕ)}, (∀ m ∈ done, m ≠ entry → t.lookup m = some (newDom preds t m)) →
      (n ≠ entry → t.lookup n = some (newDom preds t n)) →
      ∀ m ∈ done ++ [n], m ≠ entry → t.lookup m = some (newDom preds t m) := by
    exact fun hold hnew => forall_mem_concat.mpr ⟨hold, hnew⟩
  unfold Extractor.updateDom
  split_ifs with hentry hchange
  · exact { h with same := fun hflag => ⟨(h.same hflag).1,
      hdone (h.same hflag).2 fun hne => absurd hentry hne⟩ }
  · obtain ⟨hsound, hless⟩ := h.sound.insert hpreds hn hentry
    have hlt : domSize bbs (s.dom.insert n (newDom preds s.dom n)) < domSize bbs s.dom := by
      refine Finset.sum_lt_sum (fun m hm => Finset.card_le_card (hless m hm)) ⟨n, hn, ?_⟩
      refine Finset.card_lt_card ((hless n hn).ssubset_of_ne fun heq => hchange ?_)
      rw [h.sound.known n hn, ← heq, AList.lookup_insert, Option.getD_some]
    exact ⟨hsound, hlt.le.trans h.le, fun _ => hlt.trans_le h.le, fun hflag => absurd hflag (by simp)⟩
  · exact { h with same := fun hflag => ⟨(h.same hflag).1,
      hdone (h.same hflag).2 fun _ => (h.same hflag).1 ▸ not_not.mp hchange⟩ }

theorem dominatorPass_passed (horder : ∀ n, n ∈ order ↔ n ∈ bbs)
    (h : DomSound cfg bbs entry preds s.dom) :
    Passed cfg bbs entry preds s.dom order (dominatorPass entry preds order s) := by
  have hrun : ∀ (rest done : List ℕ) (t : Dominating), (∀ n ∈ rest, n ∈ bbs) →
      Passed cfg bbs entry preds s.dom done t →
      Passed cfg bbs entry preds s.dom (done ++ rest) (rest.foldl (Extractor.updateDom entry preds) t) := by
    intro rest
    induction rest with
    | nil =>
      intro done t _ ht
      rwa [append_nil]
    | cons n rest ih =>
      intro done t hmem ht
      have hnext := ih (done ++ [n]) _ (fun m hm => hmem m (mem_cons_of_mem n hm))
        (ht.updateDom hpreds (hmem n mem_cons_self))
      rwa [append_assoc, singleton_append] at hnext
  exact hrun order [] { s with changed := false } (fun n hn => (horder n).mp hn)
    ⟨h, le_rfl, fun hflag => absurd hflag (by simp), fun _ => ⟨rfl, by simp⟩⟩

theorem initDom_sound (horder : ∀ n, n ∈ order ↔ n ∈ bbs) :
    DomSound cfg bbs entry preds (initDom entry bbs order) := by
  have hget : ∀ n ∈ bbs, ((initDom entry bbs order).lookup n).getD ∅ =
      if n = entry then {entry} else bbs := fun n hn => by
    rw [lookup_initDom horder hn, Option.getD_some]
  constructor
  · intro n hn
    rw [lookup_initDom horder hn, Option.getD_some]
  · intro n hn
    rw [hget n hn]
    split_ifs with heq
    · exact Finset.singleton_subset_iff.mpr (heq ▸ hn)
    · exact Finset.Subset.refl _
  · intro hentry
    rw [hget entry hentry, if_pos rfl]
  · intro n hn hne d hd
    rw [hget n hn, if_neg hne]
    rcases mem_newDom.mp hd with rfl | ⟨hnil, hall⟩
    · exact hn
    obtain ⟨q, hq⟩ := exists_mem_of_ne_nil _ hnil
    have hqmem : q ∈ bbs := ((hpreds q n).mp hq).1
    have hdq := hall q hq
    rw [hget q hqmem] at hdq
    split_ifs at hdq with heq
    · rw [Finset.mem_singleton.mp hdq, ← heq]
      exact hqmem
    · exact hdq
  · intro n hn d hd hdom
    rw [hget n hn]
    split_ifs with heq
    · subst heq
      exact Finset.mem_singleton.mpr (hdom.eq_of_root ⟨hn, .inl rfl⟩)
    · exact hd

theorem DomSound.mem_iff (h : DomSound cfg bbs entry preds dom)
    (hfix : ∀ n ∈ bbs, n ≠ entry → dom.lookup n = some (newDom preds dom n)) (hn : n ∈ bbs) :
    d ∈ (dom.lookup n).getD ∅ ↔ d ∈ bbs ∧ (flowGraph cfg bbs entry).Dominates d n := by
  have hget : ∀ n ∈ bbs, n ≠ entry → (dom.lookup n).getD ∅ = newDom preds dom n := fun n hn hne => by
    rw [hfix n hn hne, Option.getD_some]
  constructor
  · intro hd
    refine ⟨h.sub n hn hd, ?_⟩
    refine FlowGraph.dominates_of_solution (D := fun n d => n ∈ bbs ∧ d ∈ (dom.lookup n).getD ∅)
      ?_ ?_ ⟨hn, hd⟩
    · rintro r ⟨hr, hroot⟩ d ⟨-, hd⟩
      by_cases heq : r = entry
      · subst heq
        rw [h.first hr] at hd
        exact Finset.mem_singleton.mp hd
      · rw [hget r hr heq, mem_newDom] at hd
        refine hd.resolve_right fun ⟨hnil, _⟩ => ?_
        obtain ⟨q, hq⟩ := exists_mem_of_ne_nil _ hnil
        exact hroot.resolve_left heq q ((hpreds q r).mp hq)
    · rintro u v hedge d ⟨hv, hd⟩
      by_cases heq : v = entry
      · subst heq
        rw [h.first hv] at hd
        exact .inl (Finset.mem_singleton.mp hd)
      · rw [hget v hv heq, mem_newDom] at hd
        exact hd.imp_right fun ⟨_, hall⟩ => ⟨hedge.1, hall u ((hpreds u v).mpr hedge)⟩
  · rintro ⟨hd, hdom⟩
    exact h.upper n hn d hd hdom

theorem dominators_ends (horder : ∀ n, n ∈ order ↔ n ∈ bbs) :
    Ends (dominators entry preds bbs order) fun dom => ∀ n ∈ bbs, ∃ ds, dom.lookup n = some ds ∧
      ∀ d, d ∈ ds ↔ d ∈ bbs ∧ (flowGraph cfg bbs entry).Dominates d n := by
  refine .bind (Ends.whileLoop (I := fun s => DomSound cfg bbs entry preds s.dom ∧ (s.changed = false →
    ∀ n ∈ bbs, n ≠ entry → s.dom.lookup n = some (newDom preds s.dom n)))
    (fun s => domSize bbs s.dom + if s.changed then 1 else 0)
    ⟨initDom_sound hpreds horder, fun hflag => absurd hflag (by simp)⟩ ?_) ?_
  · rintro s ⟨hs, -⟩ hchanged
    have hpass := dominatorPass_passed hpreds horder hs
    refine ⟨⟨hpass.sound, fun hflag n hn hne => ?_⟩, ?_⟩
    · obtain ⟨hsame, hfix⟩ := hpass.same hflag
      rw [hsame]
      exact hfix n ((horder n).mpr hn) hne
    · rw [if_pos hchanged]
      cases hflag : (dominatorPass entry preds order s).changed with
      | false => exact Nat.lt_succ_of_le hpass.le
      | true => exact Nat.add_lt_add_right (hpass.lt hflag) 1
  · rintro s ⟨⟨hs, hfix⟩, hflag⟩
    exact .pure fun n hn => ⟨_, hs.known n hn, fun d => hs.mem_iff hpreds (hfix hflag) hn⟩

end

end

/-! ### The dominators of a function -/

section
variable (listing : LoopSet → Listing ℕ) (cfg : Cfg) (f : ℕ) (bbs : Finset ℕ)

theorem mem_blockOrder (n : ℕ) : n ∈ blockOrder listing f bbs ↔ n ∈ bbs := Listing.mem_list _

theorem mem_funcSuccs (u v : ℕ) : v ∈ funcSuccs listing cfg f bbs u ↔ FuncEdge cfg bbs u v := by
  rw [funcSuccs, Listing.mem_list, (mem_funcGraph (mem_blockOrder listing f bbs)).1]

theorem mem_funcPreds (u v : ℕ) : u ∈ funcPreds listing cfg f bbs v ↔ FuncEdge cfg bbs u v := by
  rw [funcPreds, Listing.mem_list, (mem_funcGraph (mem_blockOrder listing f bbs)).2]

/-- The graph of a function, entered at the block that the extractor takes for the entry and at
    those without predecessors. -/
def entered : FlowGraph ℕ :=
  flowGraph cfg bbs (entryBlock bbs (blockOrder listing f bbs) (funcPreds listing cfg f bbs))

/-- The loop ends in whatever order the blocks come. A block that a root reaches has the blocks that
    lie on every path from a root to it, one that no root reaches keeps all blocks. -/
theorem dominator_fixpoint :
    Ends (dominators (entryBlock bbs (blockOrder listing f bbs) (funcPreds listing cfg f bbs))
      (funcPreds listing cfg f bbs) bbs (blockOrder listing f bbs)) fun dom =>
      ∀ n ∈ bbs, ∃ ds, dom.lookup n = some ds ∧ ((entered listing cfg f bbs).Reachable n →
          ∀ d, d ∈ ds ↔ ∀ p, (entered listing cfg f bbs).Path p n → d ∈ p) ∧
        (¬ (entered listing cfg f bbs).Reachable n → ds = bbs) := by
  refine (dominators_ends (mem_funcPreds listing cfg f bbs) (mem_blockOrder listing f bbs)).mono ?_
  intro dom hdom n hn
  obtain ⟨ds, hlookup, hds⟩ := hdom n hn
  refine ⟨ds, hlookup, ?_, ?_⟩
  · rintro ⟨p, hp⟩ d
    rw [hds]
    exact ⟨And.right, fun hall => ⟨hp.subset d (hall p hp), hall⟩⟩
  · intro hnot
    ext d
    rw [hds]
    exact and_iff_left (FlowGraph.dominates_of_not_reachable hnot d)

end

end Bofuzz.Extractor
