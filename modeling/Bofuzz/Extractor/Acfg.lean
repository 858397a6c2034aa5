import Bofuzz.Lib.Run
import Mathlib.Data.List.AList
import Mathlib.Data.List.Sort

/-! The ACFG of the static extractor (`static_analysis/features_extractor.py`).

    Basic blocks are known by their start address. Their sorted addresses give every block a node
    index, and the adjacencies are dictionaries from a node to the set of its neighbours. A
    dictionary is an association list; a Python set of numbers that is sorted in the end is kept as
    its sorted listing. -/

namespace Bofuzz.Extractor
open Run

/-- A Python dictionary; nothing here depends on the order of its items. -/
abbrev Dict (κ α : Type) := AList fun _ : κ => α

section
variable {κ α : Type} [DecidableEq κ] {a : κ}

theorem lookup_insert_ite {d : Dict κ α} {k : κ} {x : α} :
    (d.insert k x).lookup a = if a = k then some x else d.lookup a := by
  split_ifs with ha
  · rw [ha, AList.lookup_insert]
  · exact AList.lookup_insert_ne ha

/-- A loop that gives some of the keys values of their own. -/
theorem lookup_foldl_insert {f : κ → α} : ∀ (ks : List κ) (d : Dict κ α),
    (ks.foldl (fun d k => d.insert k (f k)) d).lookup a = if a ∈ ks then some (f a) else d.lookup a
  | [], _ => rfl
  | k :: ks, d => by
    rw [List.foldl_cons, lookup_foldl_insert ks, lookup_insert_ite]
    by_cases ha : a = k
    · simp [ha]
    · simp [ha]

end

/-- The successors of every block, by start address. -/
abbrev Cfg := Dict ℕ (List ℕ)

inductive EdgeMode where | directed | undirected
  deriving DecidableEq

/-! ### Adjacencies -/

section
variable {κ : Type} [LinearOrder κ]

/-- `k` is a neighbour of `i`. -/
def Edge (adj : Dict κ (List κ)) (i k : κ) : Prop := ∃ ks ∈ adj.lookup i, k ∈ ks

instance (adj : Dict κ (List κ)) (i k : κ) : Decidable (Edge adj i k) :=
  inferInstanceAs (Decidable (∃ _ ∈ _, _))

/-- `set.add`. -/
def setAdd (ks : List κ) (k : κ) : List κ := if k ∈ ks then ks else ks.orderedInsert (· ≤ ·) k

@[simp] theorem mem_setAdd {ks : List κ} {k j : κ} : j ∈ setAdd ks k ↔ j ∈ ks ∨ j = k := by
  unfold setAdd
  split_ifs with h
  · exact ⟨.inl, fun hj => hj.elim id (· ▸ h)⟩
  · rw [List.mem_orderedInsert, or_comm]

/-- `adj[i].add(k)` on a `defaultdict(set)`. -/
def addEdge (adj : Dict κ (List κ)) (i k : κ) : Dict κ (List κ) :=
  adj.insert i (setAdd ((adj.lookup i).getD []) k)

variable {adj : Dict κ (List κ)}

theorem edge_addEdge {i k a b : κ} :
    Edge (addEdge adj i k) a b ↔ Edge adj a b ∨ (a = i ∧ b = k) := by
  unfold Edge addEdge
  rw [lookup_insert_ite]
  split_ifs with ha
  · subst ha
    cases adj.lookup a <;> simp
  · simp [ha]

theorem mem_lookup_iff_edge {u v : κ} : v ∈ (adj.lookup u).getD [] ↔ Edge adj u v := by
  cases hlookup : adj.lookup u <;> simp [Edge, hlookup]

end

/-! ### Node indexes -/

/-- `build_acfg_index`: the blocks in the order of their node indexes. -/
def nodeOrder (blocks : List ℕ) : List ℕ := blocks.insertionSort (· ≤ ·)

/-- The node index of a block. -/
def nodeIndex (order : List ℕ) (ea : ℕ) : Option (Fin order.length) := order.finIdxOf? ea

/-! ### Building the adjacencies -/

variable {κ : Type} [LinearOrder κ] (cfg : Cfg) (index : ℕ → Option κ) (symmetrize : Bool)

/-- The edge from `src` to `dst`, and back if the adjacency is symmetrized. -/
def addCfgEdge (src : ℕ) (i : κ) (adj : Dict κ (List κ)) (dst : ℕ) : Dict κ (List κ) :=
  match index dst with
  | none => adj
  | some k =>
    if src = dst then adj
    else if symmetrize then addEdge (addEdge adj i k) k i
    else addEdge adj i k

def addBlock (adj : Dict κ (List κ)) (block : Sigma fun _ : ℕ => List ℕ) : Dict κ (List κ) :=
  match index block.1 with
  | none => adj
  | some i => block.2.foldl (addCfgEdge index symmetrize block.1 i) adj

/-- The two builders differ only in whether they symmetrize. -/
def buildAdjacency : Dict κ (List κ) :=
  cfg.entries.foldl (addBlock index symmetrize) ∅

/-- The adjacency for Moran's I. -/
def buildAcfgAdjacency (edgeMode : EdgeMode) : Dict κ (List κ) :=
  buildAdjacency cfg index (edgeMode = .undirected)

/-- The adjacency for the regions. -/
def buildVoronoiAdjacency : Dict κ (List κ) :=
  buildAdjacency cfg index false

/-- The edge of the ACFG that a CFG edge gives. -/
def Links (src dst : ℕ) (a b : κ) : Prop :=
  src ≠ dst ∧ ((index src = some a ∧ index dst = some b) ∨
    (symmetrize ∧ index src = some b ∧ index dst = some a))

variable {cfg index symmetrize}

theorem edge_addCfgEdge {src : ℕ} {i a b : κ} (hsrc : index src = some i) (adj : Dict κ (List κ))
    (dst : ℕ) :
    Edge (addCfgEdge index symmetrize src i adj dst) a b ↔
      Edge adj a b ∨ Links index symmetrize src dst a b := by
  unfold addCfgEdge Links
  split
  · next hdst => simp [hdst]
  · next k hdst =>
    split_ifs with heq hsym
    · simp [heq]
    · simp only [edge_addEdge, hsym, or_assoc]
      grind
    · simp only [edge_addEdge, hsym]
      grind

theorem edge_addBlock {a b : κ} (adj : Dict κ (List κ)) (block : Sigma fun _ : ℕ => List ℕ) :
    Edge (addBlock index symmetrize adj block) a b ↔
      Edge adj a b ∨ ∃ dst ∈ block.2, Links index symmetrize block.1 dst a b := by
  unfold addBlock
  split
  · next hsrc => simp [Links, hsrc]
  · next i hsrc => exact foldl_iff (P := fun adj => Edge adj a b) (edge_addCfgEdge hsrc) _ _

theorem edge_buildAdjacency {a b : κ} :
    Edge (buildAdjacency cfg index symmetrize) a b ↔
      ∃ src dst, Edge cfg src dst ∧ Links index symmetrize src dst a b := by
  unfold buildAdjacency
  rw [foldl_iff (P := fun adj => Edge adj a b) edge_addBlock]
  have hempty : ¬ Edge (∅ : Dict κ (List κ)) a b := by simp [Edge]
  rw [or_iff_right hempty]
  constructor
  · rintro ⟨⟨src, dsts⟩, hblock, dst, hdst, hlinks⟩
    exact ⟨src, dst, ⟨dsts, AList.mem_lookup_iff.mpr hblock, hdst⟩, hlinks⟩
  · rintro ⟨src, dst, ⟨dsts, hblock, hdst⟩, hlinks⟩
    exact ⟨⟨src, dsts⟩, AList.mem_lookup_iff.mp hblock, dst, hdst, hlinks⟩

end Bofuzz.Extractor
