import Bofuzz.Lib.FinishOrder
import Mathlib.Data.Set.Card

/-! Flow graphs: dominators, natural loops and their nesting.

    A flow graph has a finite set of blocks, edges between them, and blocks where control enters,
    the roots; a block that no edge leads to is a root. A block dominates another one if it lies on
    every path from a root to it, so a block that no root reaches is dominated by all blocks. A back
    edge leads to a block that dominates its source, and its natural loop is the target together
    with what reaches the source without passing the target. -/

open Relation FinishOrder

/-- Blocks, edges between them and the blocks where control enters. -/
@[ext] structure FlowGraph (κ : Type) where
  blocks : Finset κ
  edge : κ → κ → Prop
  root : κ → Prop
  edge_mem : ∀ {u v}, edge u v → u ∈ blocks ∧ v ∈ blocks
  root_mem : ∀ {r}, root r → r ∈ blocks
  root_of_noPred : ∀ {n}, n ∈ blocks → (∀ u, ¬ edge u n) → root n

namespace FlowGraph
open List

variable {κ : Type} {G : FlowGraph κ} {d n u v h latch : κ} {p : List κ}

/-- A path from a root; the list has its blocks, the last one first. -/
inductive Path (G : FlowGraph κ) : List κ → κ → Prop
  | root {r : κ} : G.root r → Path G [r] r
  | step {p : List κ} {u v : κ} : Path G p u → G.edge u v → Path G (v :: p) v

/-- Some root reaches the block. -/
def Reachable (G : FlowGraph κ) (n : κ) : Prop := ∃ p, G.Path p n

/-- `d` lies on every path from a root to `n`. -/
def Dominates (G : FlowGraph κ) (d n : κ) : Prop := ∀ p, G.Path p n → d ∈ p

/-- The block lies on a cycle. -/
def Cyclic (G : FlowGraph κ) (n : κ) : Prop := TransGen G.edge n n

/-- The target of the edge dominates its source. -/
def BackEdge (G : FlowGraph κ) (u v : κ) : Prop := G.edge u v ∧ G.Dominates v u

/-- The natural loop of a back edge from `latch` to `h`: `h`, and what reaches `latch` without
    `h`. -/
def InLoop (G : FlowGraph κ) (latch h n : κ) : Prop :=
  n = h ∨ (latch ≠ h ∧ ReflTransGen (fun a b => G.edge b a ∧ b ≠ h) latch n)

/-- The loops with the same header are one. -/
def InLoopOf (G : FlowGraph κ) (h n : κ) : Prop := ∃ latch, G.BackEdge latch h ∧ G.InLoop latch h n

/-- The number of loops that a block belongs to, and at least one for a block on a cycle. -/
noncomputable def nesting (G : FlowGraph κ) (n : κ) : ℕ :=
  open Classical in max {h | G.InLoopOf h n}.ncard (if G.Cyclic n then 1 else 0)

/-- The block is the header or a latch of a loop, an end of an edge that leaves a loop, or an end of
    an edge between a component with a cycle and the rest. -/
def Boundary (G : FlowGraph κ) (n : κ) : Prop :=
  (∃ u, G.BackEdge u n) ∨ (∃ v, G.BackEdge n v) ∨
  (∃ h s, G.InLoopOf h n ∧ G.edge n s ∧ ¬ G.InLoopOf h s) ∨
  (∃ h m, G.InLoopOf h m ∧ G.edge m n ∧ ¬ G.InLoopOf h n) ∨
  (∃ m, G.Cyclic n ∧ G.edge m n ∧ ¬ Mutual G.edge m n) ∨
  (∃ s, G.Cyclic n ∧ G.edge n s ∧ ¬ Mutual G.edge n s) ∨
  (∃ m, G.Cyclic m ∧ G.edge m n ∧ ¬ Mutual G.edge m n)

/-! ### Paths -/

theorem Path.subset (hp : G.Path p n) : ∀ d ∈ p, d ∈ G.blocks := by
  induction hp with
  | root hroot => exact forall_mem_singleton.mpr (G.root_mem hroot)
  | step _ hedge ih => exact forall_mem_cons.mpr ⟨(G.edge_mem hedge).2, ih⟩

theorem Path.reaches (hp : G.Path p n) : ∀ d ∈ p, ReflTransGen G.edge d n := by
  induction hp with
  | root _ => exact forall_mem_singleton.mpr .refl
  | step _ hedge ih => exact forall_mem_cons.mpr ⟨.refl, fun d hd => (ih d hd).tail hedge⟩

theorem Reachable.edge (hu : G.Reachable u) (hedge : G.edge u v) : G.Reachable v := by
  obtain ⟨p, hp⟩ := hu
  exact ⟨v :: p, hp.step hedge⟩

theorem Reachable.reaches (hu : G.Reachable u) (hreach : ReflTransGen G.edge u v) :
    G.Reachable v := by
  induction hreach with
  | refl => exact hu
  | tail _ hedge ih => exact ih.edge hedge

/-- A block that no root reaches is dominated by all. -/
theorem dominates_of_not_reachable (hn : ¬ G.Reachable n) (d : κ) : G.Dominates d n :=
  fun p hp => absurd ⟨p, hp⟩ hn

/-- A block that no root reaches has a predecessor, which no root reaches either. -/
theorem exists_pred_of_not_reachable (hmem : n ∈ G.blocks) (hn : ¬ G.Reachable n) :
    ∃ u, G.edge u n ∧ ¬ G.Reachable u := by
  by_contra hnone
  have hnoPred : ∀ u, ¬ G.edge u n := by
    intro u hedge
    have hu : ¬ ¬ G.Reachable u := fun hu => hnone ⟨u, hedge, hu⟩
    exact hn ((not_not.mp hu).edge hedge)
  exact hn ⟨[n], .root (G.root_of_noPred hmem hnoPred)⟩

/-! ### Fixpoints -/

/-- The dominators are a solution of the data-flow equations that any other one is contained in: a
    table that has each block itself at most and beyond that only what all predecessors have. -/
theorem dominates_of_solution {D : κ → κ → Prop} (hroot : ∀ r, G.root r → ∀ d, D r d → d = r)
    (hstep : ∀ u v, G.edge u v → ∀ d, D v d → d = v ∨ D u d) (hd : D n d) : G.Dominates d n := by
  intro p hp
  induction hp with
  | root hr =>
    rw [hroot _ hr d hd]
    exact mem_singleton_self _
  | step _ hedge ih =>
    rcases hstep _ _ hedge d hd with rfl | hd
    · exact mem_cons_self
    · exact mem_cons_of_mem _ (ih hd)

theorem Dominates.eq_or_pred (hd : G.Dominates d v) (hedge : G.edge u v) :
    d = v ∨ G.Dominates d u := by
  by_cases heq : d = v
  · exact .inl heq
  · refine .inr fun p hp => ?_
    exact (mem_cons.mp (hd (v :: p) (hp.step hedge))).resolve_left heq

theorem Dominates.eq_of_root (hd : G.Dominates d n) (hroot : G.root n) : d = n :=
  mem_singleton.mp (hd [n] (.root hroot))

/-! ### Loops and cycles -/

theorem reaches_of_dominates (hu : G.Reachable u) (hd : G.Dominates d u) :
    ReflTransGen G.edge d u := by
  obtain ⟨p, hp⟩ := hu
  exact hp.reaches d (hd p hp)

theorem InLoop.reaches (hn : ReflTransGen (fun a b => G.edge b a ∧ b ≠ h) latch n) :
    ReflTransGen G.edge n latch := by
  induction hn with
  | refl => exact .refl
  | tail _ hedge ih => exact .head hedge.1 ih

/-- Going back from the latch, a path to a block of the loop goes on to the latch without the
    header. -/
theorem exists_path_latch (hn : ReflTransGen (fun a b => G.edge b a ∧ b ≠ h) latch n)
    (hp : G.Path p n) : ∃ q, G.Path q latch ∧ (h ∈ q → h ∈ p ∨ h = latch) := by
  induction hn using ReflTransGen.head_induction_on with
  | refl => exact ⟨p, hp, .inl⟩
  | @head a b hab _ ih =>
    obtain ⟨q, hq, hmem⟩ := ih
    refine ⟨a :: q, hq.step hab.1, fun hh => ?_⟩
    rcases mem_cons.mp hh with rfl | hh
    · exact .inr rfl
    · rcases hmem hh with hh | rfl
      · exact .inl hh
      · exact absurd rfl hab.2

/-- Where the source of a back edge is reachable, the reachable blocks of its loop lie on cycles. -/
theorem BackEdge.cyclic (hback : G.BackEdge latch h) (hlatch : G.Reachable latch)
    (hn : G.InLoop latch h n) (hreach : G.Reachable n) : G.Cyclic n := by
  have hto : ReflTransGen G.edge h latch := reaches_of_dominates hlatch hback.2
  rcases hn with rfl | ⟨hne, hn⟩
  · exact TransGen.tail' hto hback.1
  obtain ⟨p, hp⟩ := hreach
  obtain ⟨q, hq, hmem⟩ := exists_path_latch hn hp
  have hh := (hmem (hback.2 q hq)).resolve_right hne.symm
  have hround : TransGen G.edge n h := TransGen.tail' (InLoop.reaches hn) hback.1
  exact hround.trans_left (hp.reaches h hh)

/-- The blocks of loops are those on cycles, those that no root reaches and their successors. -/
theorem exists_inLoopOf_iff (hmem : n ∈ G.blocks) : (∃ h, G.InLoopOf h n) ∨ G.Cyclic n ↔
    G.Cyclic n ∨ ¬ G.Reachable n ∨ ∃ u, ¬ G.Reachable u ∧ G.edge u n := by
  constructor
  · rintro (⟨h, latch, hback, hn⟩ | hcyclic)
    · by_cases hreach : G.Reachable n
      · by_cases hlatch : G.Reachable latch
        · exact .inl (hback.cyclic hlatch hn hreach)
        · rcases hn with rfl | ⟨-, hn⟩
          · exact .inr (.inr ⟨latch, hlatch, hback.1⟩)
          · exact absurd (hreach.reaches (InLoop.reaches hn)) hlatch
      · exact .inr (.inl hreach)
    · exact .inl hcyclic
  · have hloop : ∀ u, ¬ G.Reachable u → G.edge u n → ∃ h, G.InLoopOf h n :=
      fun u hu hedge => ⟨n, u, ⟨hedge, dominates_of_not_reachable hu n⟩, .inl rfl⟩
    rintro (hcyclic | hn | ⟨u, hu, hedge⟩)
    · exact .inr hcyclic
    · obtain ⟨u, hedge, hu⟩ := exists_pred_of_not_reachable hmem hn
      exact .inl (hloop u hu hedge)
    · exact .inl (hloop u hu hedge)

/-! ### Loops consist of blocks -/

theorem InLoopOf.mem (hn : G.InLoopOf h n) : n ∈ G.blocks := by
  obtain ⟨latch, hback, rfl | ⟨-, hreach⟩⟩ := hn
  · exact (G.edge_mem hback.1).2
  · rcases hreach.cases_tail with rfl | ⟨b, -, hedge⟩
    · exact (G.edge_mem hback.1).1
    · exact (G.edge_mem hedge.1).1

theorem Cyclic.mem (hn : G.Cyclic n) : n ∈ G.blocks := by
  obtain ⟨k, hedge, -⟩ := TransGen.head'_iff.mp hn
  exact (G.edge_mem hedge).1

theorem Boundary.mem (hn : G.Boundary n) : n ∈ G.blocks := by
  rcases hn with ⟨u, hback⟩ | ⟨v, hback⟩ | ⟨h, s, -, hedge, -⟩ | ⟨h, m, -, hedge, -⟩ |
    ⟨m, -, hedge, -⟩ | ⟨s, -, hedge, -⟩ | ⟨m, -, hedge, -⟩
  · exact (G.edge_mem hback.1).2
  · exact (G.edge_mem hback.1).1
  · exact (G.edge_mem hedge).1
  · exact (G.edge_mem hedge).2
  · exact (G.edge_mem hedge).2
  · exact (G.edge_mem hedge).1
  · exact (G.edge_mem hedge).2

theorem one_le_nesting_iff : 1 ≤ G.nesting n ↔ (∃ h, G.InLoopOf h n) ∨ G.Cyclic n := by
  have hfinite : {h | G.InLoopOf h n}.Finite := by
    refine G.blocks.finite_toSet.subset fun h hh => ?_
    obtain ⟨latch, hback, -⟩ := hh
    exact (G.edge_mem hback.1).2
  have hcount : 1 ≤ {h | G.InLoopOf h n}.ncard ↔ ∃ h, G.InLoopOf h n := by
    rw [Nat.one_le_iff_ne_zero, ← Nat.pos_iff_ne_zero, Set.ncard_pos hfinite]
    rfl
  rw [nesting, le_max_iff, hcount]
  by_cases hcyclic : G.Cyclic n
  · simp [hcyclic]
  · simp [hcyclic]

/-! ### Other names for the blocks -/

section
variable {κ' : Type} {φ : κ ↪ κ'} {a b : κ'}

/-- The same graph with other names for its blocks. -/
def map (φ : κ ↪ κ') (G : FlowGraph κ) : FlowGraph κ' where
  blocks := G.blocks.map φ
  edge := Relation.Map G.edge φ φ
  root a := ∃ r, G.root r ∧ φ r = a
  edge_mem := by
    rintro _ _ ⟨u, v, hedge, rfl, rfl⟩
    exact ⟨Finset.mem_map_of_mem φ (G.edge_mem hedge).1, Finset.mem_map_of_mem φ (G.edge_mem hedge).2⟩
  root_mem := by
    rintro _ ⟨r, hroot, rfl⟩
    exact Finset.mem_map_of_mem φ (G.root_mem hroot)
  root_of_noPred := by
    intro a ha hnone
    obtain ⟨n, hn, rfl⟩ := Finset.mem_map.mp ha
    exact ⟨n, G.root_of_noPred hn fun u hedge => hnone (φ u) ⟨u, n, hedge, rfl, rfl⟩, rfl⟩

@[simp] theorem map_edge_iff : (G.map φ).edge (φ u) (φ v) ↔ G.edge u v := by
  constructor
  · rintro ⟨u', v', hedge, hu, hv⟩
    rwa [← φ.injective hu, ← φ.injective hv]
  · exact fun hedge => ⟨u, v, hedge, rfl, rfl⟩

theorem Path.map (hp : G.Path p n) : (G.map φ).Path (p.map φ) (φ n) := by
  induction hp with
  | root hroot => exact .root ⟨_, hroot, rfl⟩
  | step _ hedge ih => exact ih.step (map_edge_iff.mpr hedge)

theorem Path.of_map {q : List κ'} (hq : (G.map φ).Path q (φ n)) :
    ∃ p, q = p.map φ ∧ G.Path p n := by
  generalize ha : φ n = a at hq
  induction hq generalizing n with
  | root hroot =>
    obtain ⟨r, hr, rfl⟩ := hroot
    cases φ.injective ha
    exact ⟨[n], rfl, .root hr⟩
  | step _ hedge ih =>
    obtain ⟨u, v, hedge, rfl, rfl⟩ := hedge
    cases φ.injective ha
    obtain ⟨p, rfl, hp⟩ := ih rfl
    exact ⟨n :: p, rfl, hp.step hedge⟩

@[simp] theorem dominates_map_iff : (G.map φ).Dominates (φ d) (φ n) ↔ G.Dominates d n := by
  constructor
  · intro hd p hp
    exact (mem_map_of_injective φ.injective).mp (hd (p.map φ) hp.map)
  · intro hd q hq
    obtain ⟨p, rfl, hp⟩ := hq.of_map
    exact mem_map_of_mem (hd p hp)

@[simp] theorem backEdge_map_iff : (G.map φ).BackEdge (φ u) (φ v) ↔ G.BackEdge u v :=
  and_congr map_edge_iff dominates_map_iff

/-- What a block reaches has a name if every step from a named block leads to one. -/
theorem reaches_map_iff {R : κ → κ → Prop} {S : κ' → κ' → Prop}
    (hstep : ∀ u b, S (φ u) b ↔ ∃ v, φ v = b ∧ R u v) :
    ReflTransGen S (φ u) b ↔ ∃ v, φ v = b ∧ ReflTransGen R u v := by
  constructor
  · intro hreach
    induction hreach with
    | refl => exact ⟨u, rfl, .refl⟩
    | tail _ hedge ih =>
      obtain ⟨v, rfl, hreach⟩ := ih
      obtain ⟨w, rfl, hvw⟩ := (hstep v _).mp hedge
      exact ⟨w, rfl, hreach.tail hvw⟩
  · rintro ⟨v, rfl, hreach⟩
    exact hreach.lift φ fun x y hxy => (hstep x (φ y)).mpr ⟨y, rfl, hxy⟩

theorem map_edge_left_iff : (G.map φ).edge (φ u) b ↔ ∃ v, φ v = b ∧ G.edge u v := by
  constructor
  · rintro ⟨u', v, hedge, hu, rfl⟩
    exact ⟨v, rfl, φ.injective hu ▸ hedge⟩
  · rintro ⟨v, rfl, hedge⟩
    exact map_edge_iff.mpr hedge

theorem map_edge_right_iff : (G.map φ).edge a (φ v) ↔ ∃ u, φ u = a ∧ G.edge u v := by
  constructor
  · rintro ⟨u, v', hedge, rfl, hv⟩
    exact ⟨u, rfl, φ.injective hv ▸ hedge⟩
  · rintro ⟨u, rfl, hedge⟩
    exact map_edge_iff.mpr hedge

@[simp] theorem reaches_edge_map_iff :
    ReflTransGen (G.map φ).edge (φ u) (φ v) ↔ ReflTransGen G.edge u v := by
  rw [reaches_map_iff fun u b => map_edge_left_iff]
  simp

@[simp] theorem mutual_map_iff : Mutual (G.map φ).edge (φ u) (φ v) ↔ Mutual G.edge u v :=
  and_congr reaches_edge_map_iff reaches_edge_map_iff

@[simp] theorem cyclic_map_iff : (G.map φ).Cyclic (φ n) ↔ G.Cyclic n := by
  unfold Cyclic
  rw [TransGen.head'_iff, TransGen.head'_iff]
  constructor
  · rintro ⟨b, hedge, hreach⟩
    obtain ⟨v, rfl, hnv⟩ := map_edge_left_iff.mp hedge
    exact ⟨v, hnv, reaches_edge_map_iff.mp hreach⟩
  · rintro ⟨v, hedge, hreach⟩
    exact ⟨φ v, map_edge_iff.mpr hedge, reaches_edge_map_iff.mpr hreach⟩

@[simp] theorem inLoop_map_iff : (G.map φ).InLoop (φ latch) (φ h) (φ n) ↔ G.InLoop latch h n := by
  have hstep : ∀ u b, ((G.map φ).edge b (φ u) ∧ b ≠ φ h) ↔ ∃ v, φ v = b ∧ G.edge v u ∧ v ≠ h := by
    intro u b
    rw [map_edge_right_iff]
    constructor
    · rintro ⟨⟨v, rfl, hedge⟩, hne⟩
      exact ⟨v, rfl, hedge, fun hv => hne (congrArg φ hv)⟩
    · rintro ⟨v, rfl, hedge, hne⟩
      exact ⟨⟨v, rfl, hedge⟩, φ.injective.ne hne⟩
  unfold InLoop
  rw [reaches_map_iff hstep]
  simp

@[simp] theorem inLoopOf_map_iff : (G.map φ).InLoopOf (φ h) (φ n) ↔ G.InLoopOf h n := by
  constructor
  · rintro ⟨a, hback, hn⟩
    obtain ⟨latch, rfl, -⟩ := map_edge_right_iff.mp hback.1
    exact ⟨latch, backEdge_map_iff.mp hback, inLoop_map_iff.mp hn⟩
  · rintro ⟨latch, hback, hn⟩
    exact ⟨φ latch, backEdge_map_iff.mpr hback, inLoop_map_iff.mpr hn⟩

theorem InLoopOf.exists_of_map {n' : κ'} (hn : (G.map φ).InLoopOf a n') : ∃ h, φ h = a := by
  obtain ⟨latch, hback, -⟩ := hn
  obtain ⟨-, h, -, -, hh⟩ := hback.1
  exact ⟨h, hh⟩

@[simp] theorem nesting_map : (G.map φ).nesting (φ n) = G.nesting n := by
  have hheaders : {a | (G.map φ).InLoopOf a (φ n)} = φ '' {h | G.InLoopOf h n} := by
    ext a
    constructor
    · intro ha
      obtain ⟨h, rfl⟩ := InLoopOf.exists_of_map ha
      exact ⟨h, inLoopOf_map_iff.mp ha, rfl⟩
    · rintro ⟨h, hh, rfl⟩
      exact inLoopOf_map_iff.mpr hh
  unfold nesting
  rw [hheaders, Set.ncard_image_of_injective _ φ.injective]
  by_cases hcyclic : G.Cyclic n
  · rw [if_pos hcyclic, if_pos (cyclic_map_iff.mpr hcyclic)]
  · rw [if_neg hcyclic, if_neg (mt cyclic_map_iff.mp hcyclic)]

/-- What holds of ends of edges at most, holds somewhere if it holds of a named block. -/
theorem exists_map_iff {P : κ' → Prop} {Q : κ → Prop} (hmem : ∀ a, P a → a ∈ (G.map φ).blocks)
    (hQ : ∀ u, P (φ u) ↔ Q u) : (∃ a, P a) ↔ ∃ u, Q u := by
  constructor
  · rintro ⟨a, ha⟩
    obtain ⟨u, -, rfl⟩ := Finset.mem_map.mp (hmem a ha)
    exact ⟨u, (hQ u).mp ha⟩
  · rintro ⟨u, hu⟩
    exact ⟨φ u, (hQ u).mpr hu⟩

theorem boundary_map_iff : (G.map φ).Boundary (φ n) ↔ G.Boundary n := by
  have hmem : ∀ {a b}, (G.map φ).edge a b → a ∈ (G.map φ).blocks ∧ b ∈ (G.map φ).blocks :=
    (G.map φ).edge_mem
  have hheader : ∀ {a b}, (G.map φ).InLoopOf a b → a ∈ (G.map φ).blocks := by
    rintro a b ⟨latch, hback, -⟩
    exact (hmem hback.1).2
  refine or_congr ?_ (or_congr ?_ (or_congr ?_ (or_congr ?_ (or_congr ?_ (or_congr ?_ ?_)))))
  · exact exists_map_iff (fun a h => (hmem h.1).1) fun u => backEdge_map_iff
  · exact exists_map_iff (fun a h => (hmem h.1).2) fun u => backEdge_map_iff
  · refine exists_map_iff (G := G) (φ := φ) ?_ fun u => ?_
    · rintro a ⟨s, h, -⟩
      exact hheader h
    · exact exists_map_iff (fun a h => (hmem h.2.1).2) fun s => by simp
  · refine exists_map_iff (G := G) (φ := φ) ?_ fun u => ?_
    · rintro a ⟨m, h, -⟩
      exact hheader h
    · exact exists_map_iff (fun a h => (hmem h.2.1).1) fun m => by simp
  · exact exists_map_iff (fun a h => (hmem h.2.1).1) fun m => by simp
  · exact exists_map_iff (fun a h => (hmem h.2.1).2) fun s => by simp
  · exact exists_map_iff (fun a h => (hmem h.2.1).1) fun m => by simp

end

end FlowGraph
