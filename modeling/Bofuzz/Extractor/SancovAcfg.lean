import Bofuzz.Extractor.Voronoi

/-! The sancov graph that the runtime reads (`static_analysis/features_extractor.py`).

    Two sancov sites are linked when an edge of the given adjacency leads from a node of the first
    one's region to a node of the second one's. The extraction hands the exporter the adjacency
    that it has built for Moran's I, which may be symmetrized. -/

namespace Bofuzz.Extractor
open Run List

variable {n : ℕ}

structure SancovNode (n : ℕ) where
  sancovIndex : ℕ
  pc : String
  seedNode : Fin n
  regionSize : ℕ

/-- The content of `<base>_sancov_acfg.json`. -/
structure SancovAcfgFile (n : ℕ) where
  schemaVersion : ℕ := 1
  kind : String := "bofuzz-sancov-acfg-v1"
  target : String
  nSancovSites : ℕ
  nodes : List (SancovNode n)
  successors : List (List ℕ)
  predecessors : List (List ℕ)

/-- The site that owns a node, if it is one of the `m` sites. -/
def ownerSancov (m : ℕ) (assignment : Fin n → Option Assignment) (v : Fin n) : Option (Fin m) :=
  match assignment v with
  | none => none
  | some info => if h : info.owner < m then some ⟨info.owner, h⟩ else none

/-- One set for each site. -/
abbrev Sets (m : ℕ) := Fin m → List (Fin m)

variable {m : ℕ}

/-- `sets[u].add(v)`. -/
def Sets.add (sets : Sets m) (u v : Fin m) : Sets m :=
  Function.update sets u (setAdd (sets u) v)

/-- Visit the node `v` next to a node of the site `su`. -/
def linkTo (owner : Fin n → Option (Fin m)) (su : Fin m) (sets : Sets m × Sets m) (v : Fin n) :
    Sets m × Sets m :=
  match owner v with
  | none => sets
  | some sv => if sv = su then sets else (sets.1.add su sv, sets.2.add sv su)

def linkFrom (owner : Fin n → Option (Fin m)) (sets : Sets m × Sets m)
    (e : Sigma fun _ : Fin n => List (Fin n)) : Sets m × Sets m :=
  match owner e.1 with
  | none => sets
  | some su => e.2.foldl (linkTo owner su) sets

/-- The successor and the predecessor sets. -/
def linkSites (owner : Fin n → Option (Fin m)) (adj : Dict (Fin n) (List (Fin n))) :
    Sets m × Sets m :=
  adj.entries.foldl (linkFrom owner) (fun _ => [], fun _ => [])

def Sets.toLists (sets : Sets m) : List (List ℕ) :=
  List.ofFn fun u => (sets u).map Fin.val

/-- The nodes of the file: the sites that have a seed node. -/
def sancovNodes (seeds : List (Seed n)) (regions : Regions n) : List (SancovNode n) :=
  (List.range seeds.length).filterMap fun sancovIndex =>
    (seeds.reverse.find? fun seed => seed.sancovIndex = sancovIndex).bind fun seed =>
      seed.nodeIndex.map fun seedNode =>
        { sancovIndex, pc := seed.pc, seedNode
          regionSize := (regions.regionsBySancov sancovIndex).length }

def saveSancovAcfgJson (target : String) (seeds : List (Seed n)) (regions : Regions n)
    (acfgAdj : Dict (Fin n) (List (Fin n))) : Except String (SancovAcfgFile n) :=
  let m := seeds.length
  let (successors, predecessors) := linkSites (ownerSancov m regions.nodeAssignment) acfgAdj
  if successors.toLists.length ≠ m then .error "sancov ACFG successors length mismatch"
  else if predecessors.toLists.length ≠ m then .error "sancov ACFG predecessors length mismatch"
  else .ok { target, nSancovSites := m, nodes := sancovNodes seeds regions
             successors := successors.toLists, predecessors := predecessors.toLists }

/-! ### The extraction -/

/-- What the extraction knows of a program. -/
structure Program where
  blocks : List ℕ
  cfg : Cfg
  pcs : List ℕ
  findBlock : ℕ → Option ℕ
  target : String

namespace Program

variable (prog : Program)

abbrev nodes : ℕ := (nodeOrder prog.blocks).length

def index (ea : ℕ) : Option (Fin prog.nodes) := nodeIndex (nodeOrder prog.blocks) ea

def seeds : List (Seed prog.nodes) :=
  buildSancovSeedNodes prog.pcs prog.findBlock prog.index

def regions : Regions prog.nodes :=
  buildAcfgVoronoiRegions prog.seeds (buildVoronoiAdjacency prog.cfg prog.index)

end Program

/-- `run_extraction`, from the CFG to the sancov graph. -/
def runExtraction (prog : Program) (acfgEdgeMode : EdgeMode) :
    Except String (SancovAcfgFile prog.nodes) :=
  if prog.blocks.length = 0 then
    .error "Target-only CFG is empty. Check entry points/reachability or build symbols."
  else
    match validateUniqueSancovSeedNodes prog.seeds with
    | .error e => .error e
    | .ok () =>
      saveSancovAcfgJson prog.target prog.seeds prog.regions
        (buildAcfgAdjacency prog.cfg prog.index acfgEdgeMode)

/-! ### The links -/

theorem mem_add {sets : Sets m} {u v a b : Fin m} :
    b ∈ (sets.add u v) a ↔ b ∈ sets a ∨ (a = u ∧ b = v) := by
  unfold Sets.add
  by_cases ha : a = u
  · subst ha; simp
  · simp [ha]

theorem mem_linkTo {owner : Fin n → Option (Fin m)} {su a b : Fin m} (sets : Sets m × Sets m)
    (v : Fin n) :
    b ∈ (linkTo owner su sets v).1 a ↔ b ∈ sets.1 a ∨ (owner v = some b ∧ b ≠ a ∧ a = su) := by
  unfold linkTo
  split
  · next hv => simp [hv]
  · next sv hv =>
    split_ifs with heq
    · grind
    · rw [mem_add]
      grind

theorem mem_linkFrom {owner : Fin n → Option (Fin m)} {a b : Fin m} (sets : Sets m × Sets m)
    (e : Sigma fun _ : Fin n => List (Fin n)) :
    b ∈ (linkFrom owner sets e).1 a ↔
      b ∈ sets.1 a ∨ ∃ v ∈ e.2, owner e.1 = some a ∧ owner v = some b ∧ b ≠ a := by
  unfold linkFrom
  split
  · next hu => simp [hu]
  · next su hu =>
    rw [foldl_iff (P := fun sets : Sets m × Sets m => b ∈ sets.1 a) mem_linkTo, hu]
    grind

/-- Two different sites are linked just when an edge of the adjacency joins their regions. -/
theorem mem_linkSites {owner : Fin n → Option (Fin m)} {adj : Dict (Fin n) (List (Fin n))}
    {a b : Fin m} :
    b ∈ (linkSites owner adj).1 a ↔ a ≠ b ∧ ∃ i k, Edge adj i k ∧ owner i = some a ∧ owner k = some b := by
  unfold linkSites
  rw [foldl_iff (P := fun sets : Sets m × Sets m => b ∈ sets.1 a) mem_linkFrom]
  constructor
  · rintro (h | ⟨⟨i, ks⟩, he, k, hk, hi, hb, hne⟩)
    · cases h
    · exact ⟨hne.symm, i, k, ⟨ks, AList.mem_lookup_iff.mpr he, hk⟩, hi, hb⟩
  · rintro ⟨hne, i, k, ⟨ks, he, hk⟩, hi, hb⟩
    exact .inr ⟨⟨i, ks⟩, AList.mem_lookup_iff.mp he, k, hk, hi, hb, hne.symm⟩

theorem Sets.mem_toLists {sets : Sets m} {u v : ℕ} :
    v ∈ sets.toLists.getD u [] ↔ ∃ (hu : u < m) (hv : v < m), ⟨v, hv⟩ ∈ sets ⟨u, hu⟩ := by
  unfold Sets.toLists
  by_cases hu : u < m
  · rw [getD_eq_getElem?_getD, List.getElem?_ofFn, dif_pos hu, Option.getD_some, mem_map]
    constructor
    · rintro ⟨w, hw, rfl⟩
      exact ⟨hu, w.isLt, hw⟩
    · rintro ⟨_, hv, h⟩
      exact ⟨⟨v, hv⟩, h, rfl⟩
  · simp [hu]

/-! ### The region graph -/

namespace Program

/-- The site whose region a block lies in. -/
def owner (prog : Program) (ea : ℕ) : Option ℕ :=
  (prog.index ea).bind fun v => (prog.regions.nodeAssignment v).map (·.owner)

/-- A CFG edge leads from the region of `u` into that of `v`. -/
def RegionEdge (prog : Program) (u v : ℕ) : Prop :=
  ∃ src dst, Edge prog.cfg src dst ∧ prog.owner src = some u ∧ prog.owner dst = some v

variable {prog : Program}

theorem nodeAssignment_lt {v : Fin prog.nodes} {info : Assignment}
    (h : prog.regions.nodeAssignment v = some info) : info.owner < prog.seeds.length := by
  obtain ⟨o, ho, rfl⟩ := Option.map_eq_some_iff.mp h
  obtain ⟨seed, hseed, rfl⟩ := searched_owner ho
  obtain ⟨⟨pc, i⟩, hi, rfl⟩ := mem_map.mp hseed
  have hlt : i < prog.seeds.length := by
    rw [seeds, buildSancovSeedNodes, length_map, length_zipIdx]
    simpa using (mem_zipIdx hi).2.1
  dsimp only
  split
  · exact hlt
  · split <;> exact hlt

theorem owner_eq_some {ea u : ℕ} : prog.owner ea = some u ↔
    ∃ i, prog.index ea = some i ∧ (prog.regions.nodeAssignment i).map (·.owner) = some u :=
  Option.bind_eq_some_iff

theorem owner_lt {ea u : ℕ} (h : prog.owner ea = some u) : u < prog.seeds.length := by
  obtain ⟨i, _, hi⟩ := owner_eq_some.mp h
  obtain ⟨info, hinfo, rfl⟩ := Option.map_eq_some_iff.mp hi
  exact nodeAssignment_lt hinfo

end Program

variable {prog : Program} {acfgEdgeMode : EdgeMode}

theorem runExtraction_ok {file : SancovAcfgFile prog.nodes}
    (h : runExtraction prog acfgEdgeMode = .ok file) :
    file.successors = (linkSites (ownerSancov prog.seeds.length prog.regions.nodeAssignment)
      (buildAcfgAdjacency prog.cfg prog.index acfgEdgeMode)).1.toLists := by
  unfold runExtraction saveSancovAcfgJson at h
  split_ifs at h
  split at h
  · cases h
  dsimp only at h
  split_ifs at h
  cases h
  rfl

theorem ownerSancov_eq_some {v : Fin prog.nodes} {a : Fin prog.seeds.length} :
    ownerSancov prog.seeds.length prog.regions.nodeAssignment v = some a ↔
      (prog.regions.nodeAssignment v).map (·.owner) = some a.val := by
  unfold ownerSancov
  split
  · next h => simp [h]
  · next info h => simp [h, Program.nodeAssignment_lt h, Fin.ext_iff]

/-- The exported successors: along the CFG edges, and against them too in undirected mode. -/
theorem mem_successors {file : SancovAcfgFile prog.nodes}
    (h : runExtraction prog acfgEdgeMode = .ok file) {u v : ℕ} :
    v ∈ file.successors.getD u [] ↔ u ≠ v ∧
      (prog.RegionEdge u v ∨ (acfgEdgeMode = .undirected ∧ prog.RegionEdge v u)) := by
  rw [runExtraction_ok h, Sets.mem_toLists]
  simp only [mem_linkSites, buildAcfgAdjacency, edge_buildAdjacency, ownerSancov_eq_some]
  constructor
  · rintro ⟨hu, hv, hne, i, k, ⟨src, dst, hedge, _, hlinks⟩, hi, hk⟩
    refine ⟨fun heq => hne (Fin.ext heq), ?_⟩
    rcases hlinks with ⟨hsrc, hdst⟩ | ⟨hsym, hsrc, hdst⟩
    · exact .inl ⟨src, dst, hedge, Program.owner_eq_some.mpr ⟨i, hsrc, hi⟩,
        Program.owner_eq_some.mpr ⟨k, hdst, hk⟩⟩
    · exact .inr ⟨of_decide_eq_true hsym, src, dst, hedge,
        Program.owner_eq_some.mpr ⟨k, hsrc, hk⟩, Program.owner_eq_some.mpr ⟨i, hdst, hi⟩⟩
  · rintro ⟨hne, ⟨src, dst, hedge, hu, hv⟩ | ⟨hmode, src, dst, hedge, hv, hu⟩⟩
    · obtain ⟨i, hsrc, hi⟩ := Program.owner_eq_some.mp hu
      obtain ⟨k, hdst, hk⟩ := Program.owner_eq_some.mp hv
      have hloop : src ≠ dst := fun heq => hne (Option.some.inj (hu.symm.trans (heq ▸ hv)))
      exact ⟨Program.owner_lt hu, Program.owner_lt hv, fun heq => hne (congrArg Fin.val heq), i, k,
        ⟨src, dst, hedge, hloop, .inl ⟨hsrc, hdst⟩⟩, hi, hk⟩
    · obtain ⟨i, hdst, hi⟩ := Program.owner_eq_some.mp hu
      obtain ⟨k, hsrc, hk⟩ := Program.owner_eq_some.mp hv
      have hloop : src ≠ dst := fun heq => hne (Option.some.inj (hu.symm.trans (heq ▸ hv)))
      exact ⟨Program.owner_lt hu, Program.owner_lt hv, fun heq => hne (congrArg Fin.val heq), i, k,
        ⟨src, dst, hedge, hloop, .inr ⟨decide_eq_true hmode, hsrc, hdst⟩⟩, hi, hk⟩

/-- The exported graph is the directed region graph just when the edge mode is directed, or the
    region graph is symmetric anyway. -/
theorem exported_graph_directed_iff (prog : Program) (acfgEdgeMode : EdgeMode)
    (file : SancovAcfgFile prog.nodes) (h : runExtraction prog acfgEdgeMode = .ok file) :
    (∀ u v, v ∈ file.successors.getD u [] ↔ u ≠ v ∧ prog.RegionEdge u v) ↔
      acfgEdgeMode = .directed ∨ ∀ u v, u ≠ v → prog.RegionEdge u v → prog.RegionEdge v u := by
  simp only [mem_successors h]
  cases acfgEdgeMode with
  | directed => simp
  | undirected =>
    constructor
    · intro hall
      exact .inr fun u v hne hedge => ((hall v u).mp ⟨hne.symm, .inr ⟨rfl, hedge⟩⟩).2
    · rintro (hmode | hsymm) u v
      · cases hmode
      · exact ⟨fun ⟨hne, hedge⟩ => ⟨hne, hedge.elim id fun hback => hsymm v u hne.symm hback.2⟩,
          fun ⟨hne, hedge⟩ => ⟨hne, .inl hedge⟩⟩

namespace Demo

/-- Two instrumented blocks, the first one jumping to the second. -/
def program : Program where
  blocks := [16, 32]
  cfg := (∅ : Cfg).insert 16 [32]
  pcs := [16, 32]
  findBlock pc := if pc = 16 ∨ pc = 32 then some pc else none
  target := "demo"

theorem extracted (acfgEdgeMode : EdgeMode) :
    ∃ file, runExtraction program acfgEdgeMode = .ok file := by
  have h : (runExtraction program acfgEdgeMode).isOk := by cases acfgEdgeMode <;> decide +kernel
  cases hrun : runExtraction program acfgEdgeMode with
  | ok file => exact ⟨file, rfl⟩
  | error e => rw [hrun] at h; cases h

end Demo

theorem exported_graph_directed_demo : ∃ file, runExtraction Demo.program .directed = .ok file ∧
    ∀ u v, v ∈ file.successors.getD u [] ↔ u ≠ v ∧ Demo.program.RegionEdge u v := by
  obtain ⟨file, h⟩ := Demo.extracted .directed
  exact ⟨file, h, (exported_graph_directed_iff Demo.program .directed file h).mpr (.inl rfl)⟩

/-- In undirected mode the first block is exported as a successor of the second. -/
theorem exported_graph_backward : ∃ file, runExtraction Demo.program .undirected = .ok file ∧
    0 ∈ file.successors.getD 1 [] ∧ ¬ Demo.program.RegionEdge 1 0 := by
  obtain ⟨file, h⟩ := Demo.extracted .undirected
  have hforward : Demo.program.RegionEdge 0 1 :=
    ⟨16, 32, by decide, by decide +kernel, by decide +kernel⟩
  refine ⟨file, h, (mem_successors h).mpr ⟨Nat.one_ne_zero, .inr ⟨rfl, hforward⟩⟩, ?_⟩
  rintro ⟨src, dst, ⟨dsts, hsrc, hdst⟩, howner, _⟩
  by_cases heq : src = 16
  · subst heq
    exact absurd howner (by decide +kernel)
  · rw [Demo.program, AList.lookup_insert_ne heq, AList.lookup_empty] at hsrc
    cases hsrc

end Bofuzz.Extractor
