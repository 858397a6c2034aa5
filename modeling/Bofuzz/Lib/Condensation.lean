import Bofuzz.Lib.FinishOrder
import Mathlib.Data.Set.Card

/-! The condensation of a graph.

    Every vertex belongs to a component, named by `comp`, and two vertices belong to the same one
    exactly if each reaches the other. The condensation has an edge between two different components
    if some edge of the graph leads from one to the other. It has no cycles, and its paths are those
    of the graph (`transGen_iff`), so what a vertex reaches can be counted on it
    (`sum_card_add`). -/

namespace Condensation
open Relation FinishOrder Finset

variable {κ ι : Type} {nodes : Finset κ} {R : κ → κ → Prop} {comp : κ → ι}

/-- `comp` names the components of the graph. -/
structure Names (nodes : Finset κ) (R : κ → κ → Prop) (comp : κ → ι) : Prop where
  mem : ∀ u v, R u v → u ∈ nodes ∧ v ∈ nodes
  eq_iff : ∀ u ∈ nodes, ∀ v ∈ nodes, comp u = comp v ↔ Mutual R u v

/-- An edge between two components. -/
def Edge (R : κ → κ → Prop) (comp : κ → ι) (i j : ι) : Prop :=
  i ≠ j ∧ ∃ u v, R u v ∧ comp u = i ∧ comp v = j

namespace Names

theorem swap (h : Names nodes R comp) : Names nodes (fun u v => R v u) comp where
  mem u v huv := (h.mem v u huv).symm
  eq_iff u hu v hv := by
    rw [h.eq_iff u hu v hv]
    exact ⟨fun m => ⟨reflTransGen_swap.mpr m.2, reflTransGen_swap.mpr m.1⟩,
      fun m => ⟨reflTransGen_swap.mp m.2, reflTransGen_swap.mp m.1⟩⟩

theorem reaches_comp {u v : κ} (huv : ReflTransGen R u v) :
    ReflTransGen (Edge R comp) (comp u) (comp v) := by
  induction huv with
  | refl => exact .refl
  | @tail b c _ hstep ih =>
    by_cases heq : comp b = comp c
    · exact heq ▸ ih
    · exact ih.tail ⟨heq, b, c, hstep, rfl, rfl⟩

/-- A path of the condensation leads from every vertex of its first component to every vertex of its
    last one. -/
theorem reaches_of_comp (h : Names nodes R comp) {u : κ} (hu : u ∈ nodes) {j : ι}
    (hreach : ReflTransGen (Edge R comp) (comp u) j) :
    ∀ v ∈ nodes, comp v = j → ReflTransGen R u v := by
  induction hreach with
  | refl => exact fun v hv hcomp => ((h.eq_iff v hv u hu).mp hcomp).2
  | @tail k j _ hedge ih =>
    obtain ⟨-, a, b, hab, hak, hbj⟩ := hedge
    intro v hv hcomp
    obtain ⟨ha, hb⟩ := h.mem a b hab
    have hbv := (h.eq_iff b hb v hv).mp (hbj.trans hcomp.symm)
    exact ((ih a ha hak).tail hab).trans hbv.1

theorem transGen_iff (h : Names nodes R comp) {u : κ} (hu : u ∈ nodes) {j : ι} :
    TransGen (Edge R comp) (comp u) j ↔ j ≠ comp u ∧ ∃ v ∈ nodes, comp v = j ∧ ReflTransGen R u v := by
  constructor
  · intro hpath
    obtain ⟨k, hfirst, hrest⟩ := TransGen.head'_iff.mp hpath
    obtain ⟨hne, a, b, hab, hau, hbk⟩ := hfirst
    obtain ⟨ha, hb⟩ := h.mem a b hab
    have hend : ∃ v ∈ nodes, comp v = j := by
      rcases hrest.cases_tail with heq | ⟨_, -, -, c, d, hcd, -, hd⟩
      · exact ⟨b, hb, hbk.trans heq.symm⟩
      · exact ⟨d, (h.mem c d hcd).2, hd⟩
    obtain ⟨v, hv, hvj⟩ := hend
    refine ⟨?_, v, hv, hvj, h.reaches_of_comp hu hpath.to_reflTransGen v hv hvj⟩
    -- a cycle would join the first two components
    rintro rfl
    have hback : ReflTransGen R b a := h.reaches_of_comp hb (hbk ▸ hrest) a ha hau
    exact hne ((hau.symm.trans ((h.eq_iff a ha b hb).mpr ⟨.single hab, hback⟩)).trans hbk)
  · rintro ⟨hne, v, -, hvj, hreach⟩
    have hpath : ReflTransGen (Edge R comp) (comp u) (comp v) := reaches_comp hreach
    rw [hvj] at hpath
    rcases reflTransGen_iff_eq_or_transGen.mp hpath with heq | htrans
    · exact absurd heq hne
    · exact htrans

/-- The vertices of the other components that are reached, and those of the own component but one,
    are the other vertices that are reached. -/
theorem sum_card_add [DecidableEq κ] [DecidableEq ι] (h : Names nodes R comp) {u : κ}
    (hu : u ∈ nodes) {visited : Finset ι}
    (hvisited : ∀ j, j ∈ visited ↔ TransGen (Edge R comp) (comp u) j) :
    ∑ j ∈ visited, (nodes.filter (comp · = j)).card + (nodes.filter (comp · = comp u)).card =
      {v | v ∈ nodes ∧ v ≠ u ∧ ReflTransGen R u v}.ncard + 1 := by
  classical
  have hnew : comp u ∉ visited := fun hmem => (((h.transGen_iff hu).mp ((hvisited _).mp hmem)).1) rfl
  have hreached : ∀ v ∈ nodes, ReflTransGen R u v ↔ comp v ∈ insert (comp u) visited := by
    intro v hv
    rw [mem_insert, hvisited, h.transGen_iff hu]
    constructor
    · intro hreach
      by_cases heq : comp v = comp u
      · exact .inl heq
      · exact .inr ⟨heq, v, hv, rfl, hreach⟩
    · rintro (heq | ⟨-, w, hw, hcomp, hreach⟩)
      · exact ((h.eq_iff v hv u hu).mp heq).2
      · exact hreach.trans ((h.eq_iff w hw v hv).mp hcomp).1
  have hsum : ∑ j ∈ visited, (nodes.filter (comp · = j)).card + (nodes.filter (comp · = comp u)).card =
      (nodes.filter fun v => ReflTransGen R u v).card := by
    rw [add_comm, ← sum_insert (f := fun j => (nodes.filter (comp · = j)).card) hnew,
      card_eq_sum_card_fiberwise (f := comp) (t := insert (comp u) visited)]
    · refine sum_congr rfl fun j hj => congrArg Finset.card ?_
      ext v
      simp only [mem_filter]
      constructor
      · rintro ⟨hv, rfl⟩
        exact ⟨⟨hv, (hreached v hv).mpr hj⟩, rfl⟩
      · rintro ⟨⟨hv, -⟩, hcomp⟩
        exact ⟨hv, hcomp⟩
    · intro v hv
      obtain ⟨hv, hreach⟩ := mem_filter.mp hv
      exact (hreached v hv).mp hreach
  have hset : {v | v ∈ nodes ∧ v ≠ u ∧ ReflTransGen R u v} =
      ((nodes.filter fun v => ReflTransGen R u v).erase u : Finset κ) := by
    ext v
    simp only [Set.mem_ofPred_eq, coe_erase, coe_filter, Set.mem_sdiff, Set.mem_singleton_iff]
    tauto
  rw [hsum, hset, Set.ncard_coe_finset, card_erase_add_one]
  exact mem_filter.mpr ⟨hu, .refl⟩

end Names

end Condensation
