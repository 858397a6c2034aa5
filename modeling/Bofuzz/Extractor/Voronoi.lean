import Bofuzz.Extractor.Acfg
import Mathlib.Data.Fintype.Card

/-! The regions of the sancov sites (`static_analysis/features_extractor.py`).

    Every sancov PC that lies in a block of the ACFG is a seed. A breadth-first search from all
    seeds at once gives every node it reaches to the nearest seed, the one with the smallest sancov
    index where several are equally near. The search works layer by layer; a node is given away for
    good when its layer is reached. -/

namespace Bofuzz.Extractor
open List

/-! ### Seeds -/

/-- `hex`. -/
def hex (n : ℕ) : String := "0x" ++ String.ofList (Nat.toDigits 16 n)

/-- A seed record; `n` is the number of nodes. -/
structure Seed (n : ℕ) where
  sancovIndex : ℕ
  pc : String
  bbStart : Option String
  nodeIndex : Option (Fin n)
  note : Option String := none

variable {n : ℕ}

/-- `find_block` answers with the start address of the block that contains a PC. -/
def buildSancovSeedNodes (pcs : List ℕ) (findBlock : ℕ → Option ℕ) (index : ℕ → Option (Fin n)) :
    List (Seed n) :=
  pcs.zipIdx.map fun (pc, sancovIndex) =>
    match findBlock pc with
    | none => { sancovIndex, pc := hex pc, bbStart := none, nodeIndex := none, note := some "no_bb" }
    | some start =>
      match index start with
      | some node =>
        { sancovIndex, pc := hex pc, bbStart := some (hex start), nodeIndex := some node }
      | none =>
        { sancovIndex, pc := hex pc, bbStart := some (hex start), nodeIndex := none
          note := some "non_target" }

variable (seeds : List (Seed n))

/-- The seeds of every node that has some. -/
def seedsByNode : Dict (Fin n) (List (Seed n)) :=
  seeds.foldl (fun byNode seed =>
    match seed.nodeIndex with
    | none => byNode
    | some node => byNode.insert node ((byNode.lookup node).getD [] ++ [seed])) ∅

/-- An optional text as Python formats it. -/
def pyText (s : Option String) : String := s.getD "None"

/-- `validate_unique_sancov_seed_nodes`. -/
def validateUniqueSancovSeedNodes : Except String Unit :=
  let duplicates := (seedsByNode seeds).entries.filter fun e => 1 < e.2.length
  if duplicates = [] then .ok ()
  else
    let lines := (duplicates.insertionSort (fun a b => a.1 ≤ b.1)).flatMap fun e =>
      s!"  node_index={e.1} bb_start={pyText (e.2.head?.bind (·.bbStart))}" ::
        e.2.map fun seed =>
          s!"    sancov_index={seed.sancovIndex} pc={seed.pc} bb_start={pyText seed.bbStart}"
    .error (String.intercalate "\n" (
      ["BOFuzz ACFG Voronoi error: duplicate sancov seeds map to the same ACFG block."] ++ lines ++
      ["This indicates invalid or ambiguous instrumentation. Please debug sancov PC mapping."]))

/-! ### The search -/

/-- The state of the search: what is given away, and the layer reached last. -/
structure Layers (n : ℕ) where
  owner : Fin n → Option ℕ
  distance : Fin n → Option ℕ
  currentLayer : List (Fin n)
  d : ℕ

/-- A seed claims its node unless one with a smaller index has. -/
def claimSeed (s : Layers n) (seed : ℕ × Fin n) : Layers n :=
  if (s.owner seed.2).isSome then s
  else
    { s with
      owner := Function.update s.owner seed.2 (some seed.1)
      distance := Function.update s.distance seed.2 (some 0)
      currentLayer := s.currentLayer ++ [seed.2] }

def seedPairs : List (ℕ × Fin n) :=
  seeds.filterMap fun seed => seed.nodeIndex.map (seed.sancovIndex, ·)

def initLayers : Layers n :=
  ((seedPairs seeds).insertionSort (fun a b => a.1 ≤ b.1)).foldl claimSeed
    { owner := fun _ => none, distance := fun _ => none, currentLayer := [], d := 0 }

/-- Offer `v` to `ou`, who gets it unless a smaller index has it. -/
def offer (s : Layers n) (ou : ℕ) (next : Dict (Fin n) ℕ) (v : Fin n) : Dict (Fin n) ℕ :=
  if (s.owner v).isSome then next
  else
    match next.lookup v with
    | none => next.insert v ou
    | some existing => if ou < existing then next.insert v ou else next

variable (seeds : List (Seed n)) (adj : Dict (Fin n) (List (Fin n)))

/-- The nodes that the owner of `u` reaches first; a node of the layer has an owner. -/
def expand (s : Layers n) (next : Dict (Fin n) ℕ) (u : Fin n) : Dict (Fin n) ℕ :=
  match s.owner u with
  | none => next
  | some ou => ((adj.lookup u).getD []).foldl (offer s ou) next

def nextLayerOwner (s : Layers n) : Dict (Fin n) ℕ :=
  s.currentLayer.foldl (expand adj s) ∅

/-- One round of the `while` loop. -/
def advance (s : Layers n) : Layers n :=
  let next := nextLayerOwner adj s
  { owner := fun v => (next.lookup v).or (s.owner v)
    distance := fun v => if (next.lookup v).isSome then some (s.d + 1) else s.distance v
    currentLayer := next.keys
    d := s.d + 1 }

/-- The `while` loop, for at most the given number of rounds. -/
def search : ℕ → Layers n → Layers n
  | 0, s => s
  | fuel + 1, s => if s.currentLayer = [] then s else search fuel (advance adj s)

structure Assignment where
  owner : ℕ
  distance : Option ℕ

structure Regions (n : ℕ) where
  regionsBySancov : ℕ → List (Fin n)
  nodeAssignment : Fin n → Option Assignment
  unassigned : List (Fin n)

/-- Where the search ends; a round gives away a node or is the last one. -/
def searched : Layers n :=
  search adj (n + 1) (initLayers seeds)

/-- The dictionaries are read by key only. -/
def buildAcfgVoronoiRegions : Regions n :=
  let s := searched seeds adj
  { regionsBySancov := fun o => (List.finRange n).filter fun v => s.owner v = some o
    nodeAssignment := fun v => (s.owner v).map fun owner => { owner, distance := s.distance v }
    unassigned := (List.finRange n).filter fun v => (s.owner v).isNone }

/-! ### One round -/

/-- What is offered is free, and goes to someone who owns a node. -/
def Offered (s : Layers n) (next : Dict (Fin n) ℕ) : Prop :=
  ∀ v, ∀ o ∈ next.lookup v, s.owner v = none ∧ ∃ u, s.owner u = some o

variable {s : Layers n} {next : Dict (Fin n) ℕ}

theorem Offered.insert {v u : Fin n} {ou : ℕ} (h : Offered s next) (hv : s.owner v = none)
    (hu : s.owner u = some ou) : Offered s (next.insert v ou) := by
  intro w o ho
  rw [lookup_insert_ite] at ho
  split_ifs at ho with hw
  · exact ⟨hw ▸ hv, u, Option.some.inj ho ▸ hu⟩
  · exact h w o ho

theorem Offered.offer {u : Fin n} {ou : ℕ} (h : Offered s next) (hu : s.owner u = some ou)
    (v : Fin n) :
    Offered s (offer s ou next v) := by
  unfold Extractor.offer
  split_ifs with hv
  · exact h
  have hv : s.owner v = none := by simpa using hv
  split
  · exact h.insert hv hu
  · split_ifs
    exacts [h.insert hv hu, h]

theorem Offered.expand (h : Offered s next) (u : Fin n) : Offered s (expand adj s next u) := by
  unfold Extractor.expand
  split
  · exact h
  · next ou hu =>
    exact foldlRecOn _ _ h fun next hnext v _ => hnext.offer hu v

theorem nextLayerOwner_offered (s : Layers n) : Offered s (nextLayerOwner adj s) :=
  foldlRecOn _ _ (fun _ _ ho => by simp at ho) fun _ hnext u _ => hnext.expand adj u

variable {seeds adj} {v : Fin n} {o : ℕ}

/-- A round keeps every owner and hands free nodes to owners. -/
theorem advance_owner (h : (advance adj s).owner v = some o) : ∃ u, s.owner u = some o := by
  rcases Option.or_eq_some_iff.mp h with h | ⟨_, h⟩
  · exact (nextLayerOwner_offered adj s v o h).2
  · exact ⟨v, h⟩

/-! ### The search ends -/

/-- The nodes that are not given away. -/
def Layers.free (s : Layers n) : Finset (Fin n) := {v | s.owner v = none}

theorem advance_free (h : (advance adj s).currentLayer ≠ []) :
    (advance adj s).free.card < s.free.card := by
  refine Finset.card_lt_card (Finset.ssubset_iff_subset_ne.mpr ⟨fun v hv => ?_, fun heq => ?_⟩)
  · rw [Layers.free, Finset.mem_filter] at hv ⊢
    exact ⟨hv.1, (Option.or_eq_none_iff.mp hv.2).2⟩
  · -- a node of the new layer was free and is not any more
    obtain ⟨v, hv⟩ := exists_mem_of_ne_nil _ h
    obtain ⟨o, ho⟩ := Option.isSome_iff_exists.mp (AList.lookup_isSome.mpr (AList.mem_keys.mp hv))
    have hfree : v ∈ s.free :=
      Finset.mem_filter.mpr ⟨Finset.mem_univ v, (nextLayerOwner_offered adj s v o ho).1⟩
    rw [← heq, Layers.free, Finset.mem_filter, show (advance adj s).owner v = some o by
      simp [advance, ho]] at hfree
    cases hfree.2

/-- With more rounds than free nodes the loop comes to its end. -/
theorem search_done (adj : Dict (Fin n) (List (Fin n))) :
    ∀ (fuel : ℕ) (s : Layers n), s.free.card < fuel → (search adj fuel s).currentLayer = []
  | 0, s, h => absurd h (Nat.not_lt_zero _)
  | fuel + 1, s, h => by
    unfold search
    split_ifs with hlayer
    · exact hlayer
    by_cases hnext : (advance adj s).currentLayer = []
    · cases fuel with
      | zero => exact hnext
      | succ fuel => rw [search, if_pos hnext]; exact hnext
    · exact search_done adj fuel _ (by have := advance_free hnext; omega)

theorem searched_done (adj : Dict (Fin n) (List (Fin n))) :
    (searched seeds adj).currentLayer = [] := by
  refine search_done adj (n + 1) _ (Nat.lt_succ_of_le ?_)
  exact (Finset.card_le_univ _).trans_eq (Fintype.card_fin n)

/-! ### Owners are seeds -/

theorem claimSeed_owner {seed : ℕ × Fin n} (h : (claimSeed s seed).owner v = some o) :
    s.owner v = some o ∨ o = seed.1 := by
  unfold claimSeed at h
  split_ifs at h
  · exact .inl h
  simp only [Function.update_apply] at h
  split_ifs at h
  · exact .inr (Option.some.inj h).symm
  · exact .inl h

theorem initLayers_owner (h : (initLayers seeds).owner v = some o) :
    ∃ seed ∈ seeds, seed.sancovIndex = o := by
  have hpair : ∀ p ∈ seedPairs seeds, ∃ seed ∈ seeds, seed.sancovIndex = p.1 := by
    intro p hp
    obtain ⟨seed, hseed, hmap⟩ := mem_filterMap.mp hp
    obtain ⟨node, _, rfl⟩ := Option.map_eq_some_iff.mp hmap
    exact ⟨seed, hseed, rfl⟩
  refine foldlRecOn (motive := fun s : Layers n => ∀ v o, s.owner v = some o →
    ∃ seed ∈ seeds, seed.sancovIndex = o) _ _ (fun _ _ h => by cases h) ?_ v o h
  intro s hs p hp v o ho
  rcases claimSeed_owner ho with ho | rfl
  · exact hs v o ho
  · exact hpair p ((mem_insertionSort _).mp hp)

theorem search_owner (adj : Dict (Fin n) (List (Fin n))) :
    ∀ (fuel : ℕ) {s : Layers n} {v : Fin n} {o : ℕ}, (search adj fuel s).owner v = some o →
      ∃ u, s.owner u = some o
  | 0, _, v, _, h => ⟨v, h⟩
  | fuel + 1, s, v, _, h => by
    unfold search at h
    split_ifs at h
    · exact ⟨v, h⟩
    · obtain ⟨u, hu⟩ := search_owner adj fuel h
      exact advance_owner hu

theorem searched_owner (h : (searched seeds adj).owner v = some o) :
    ∃ seed ∈ seeds, seed.sancovIndex = o := by
  obtain ⟨u, hu⟩ := search_owner adj _ h
  exact initLayers_owner hu

end Bofuzz.Extractor
