import Bofuzz.Extractor.FeatureArrays
import Bofuzz.Extractor.Sccs
import Mathlib.Data.Finset.Max

/-! The loop features of the blocks (`static_analysis/features_extractor.py`).

    Every function is looked at by itself. Its dominators are the solution of data-flow equations,
    computed in place until nothing changes; an edge to a dominator is a back edge and has a natural
    loop, and the loops with the same header are one. The components with a cycle are marked as
    well, for the loops that have no header that dominates them. -/

namespace Bofuzz.Extractor
open Loop Worklist

/-- The sets that are iterated. -/
inductive LoopSet where
  | blocks (f : ℕ)
  | succs (u : ℕ)
  | preds (v : ℕ)
  | radj (n : ℕ)
  | loop (header : ℕ)
  | latches (header : ℕ)
  | scc (f idx : ℕ)

/-- `func_to_bbs`. -/
def funcToBbs (funcOfBb : Dict ℕ ℕ) : Dict ℕ (Finset ℕ) :=
  funcOfBb.entries.foldl (fun bbs e => addTo bbs e.2 e.1) ∅

/-! ### The graph of a function -/

/-- `func_succs` and `func_preds`. -/
structure FuncGraph where
  succs : Dict ℕ (Finset ℕ)
  preds : Dict ℕ (Finset ℕ)

def addFuncEdge (bbs : Finset ℕ) (u : ℕ) (g : FuncGraph) (v : ℕ) : FuncGraph :=
  if v ∈ bbs then { succs := addTo g.succs u v, preds := addTo g.preds v u } else g

/-- `order` is the order of the blocks of the function. -/
def funcGraph (cfg : Cfg) (bbs : Finset ℕ) (order : List ℕ) : FuncGraph :=
  order.foldl (fun g u => ((cfg.lookup u).getD []).foldl (addFuncEdge bbs u) g)
    { succs := ∅, preds := ∅ }

variable {K : Type} [Field K] (listing : LoopSet → Listing ℕ)

/-- The blocks of a function in the order in which they are iterated. -/
def blockOrder (f : ℕ) (bbs : Finset ℕ) : List ℕ :=
  (listing (.blocks f)).list bbs

/-- What iterating over `func_succs.get(u, ())` gives. -/
def funcSuccs (cfg : Cfg) (f : ℕ) (bbs : Finset ℕ) (u : ℕ) : List ℕ :=
  (listing (.succs u)).list (((funcGraph cfg bbs (blockOrder listing f bbs)).succs.lookup u).getD ∅)

/-- What iterating over `func_preds.get(v, ())` gives. -/
def funcPreds (cfg : Cfg) (f : ℕ) (bbs : Finset ℕ) (v : ℕ) : List ℕ :=
  (listing (.preds v)).list (((funcGraph cfg bbs (blockOrder listing f bbs)).preds.lookup v).getD ∅)

/-- The first block without a predecessor, or else the first address. -/
def entryBlock (bbs : Finset ℕ) (order : List ℕ) (preds : ℕ → List ℕ) : ℕ :=
  match order.filter fun b => preds b = [] with
  | b :: _ => b
  | [] => bbs.min.untopD 0

/-! ### Dominators -/

structure Dominating where
  dom : Dict ℕ (Finset ℕ)
  changed : Bool

variable (entry : ℕ) (preds : ℕ → List ℕ)

def initDom (bbs : Finset ℕ) (order : List ℕ) : Dict ℕ (Finset ℕ) :=
  order.foldl (fun dom n => if n ≠ entry then dom.insert n bbs else dom)
    ((∅ : Dict ℕ (Finset ℕ)).insert entry {entry})

/-- `new_dom`. -/
def newDom (dom : Dict ℕ (Finset ℕ)) (n : ℕ) : Finset ℕ :=
  match preds n with
  | [] => {n}
  | p :: ps =>
    insert n (ps.foldl (fun meet q => meet ∩ (dom.lookup q).getD ∅) ((dom.lookup p).getD ∅))

def updateDom (s : Dominating) (n : ℕ) : Dominating :=
  if n = entry then s
  else if s.dom.lookup n ≠ some (newDom preds s.dom n) then
    { dom := s.dom.insert n (newDom preds s.dom n), changed := true }
  else s

/-- One round of the `while` loop. -/
def dominatorPass (order : List ℕ) (s : Dominating) : Dominating :=
  order.foldl (updateDom entry preds) { s with changed := false }

def dominators (bbs : Finset ℕ) (order : List ℕ) : Prog (Dict ℕ (Finset ℕ)) := do
  let s ← whileLoop (·.changed) (dominatorPass entry preds order)
    { dom := initDom entry bbs order, changed := true }
  pure s.dom

/-! ### Natural loops -/

variable (succs : ℕ → List ℕ)

/-- The edges to a dominator of their source, as pairs of latch and header. -/
def backEdges (dom : Dict ℕ (Finset ℕ)) (order : List ℕ) : List (ℕ × ℕ) :=
  order.flatMap fun u => ((succs u).filter fun v => v ∈ (dom.lookup u).getD ∅).map fun v => (u, v)

def naturalLoop (bbs : Finset ℕ) (latch header : ℕ) : Prog (Finset ℕ) :=
  if latch = header then pure {header}
  else do
    let found ← explore .front (fun n => (preds n).filter (· ∈ bbs))
      { marked := {header, latch}, work := [latch], taken := ∅ }
    pure found.marked

structure RawLoop where
  header : ℕ
  latch : ℕ
  nodes : Finset ℕ

def rawLoops (bbs : Finset ℕ) (edges : List (ℕ × ℕ)) : Prog (List RawLoop) :=
  edges.foldlM (fun loops e => do
    let nodes ← naturalLoop preds bbs e.1 e.2
    pure (loops ++ [{ header := e.2, latch := e.1, nodes }])) []

/-- `loops_by_header` and `latches_by_header`. -/
structure MergedLoops where
  loops : Dict ℕ (Finset ℕ)
  latches : Dict ℕ (Finset ℕ)

def mergeLoop (merged : MergedLoops) (raw : RawLoop) : MergedLoops where
  loops := merged.loops.insert raw.header ((merged.loops.lookup raw.header).getD ∅ ∪ raw.nodes)
  latches := addTo merged.latches raw.header raw.latch

def mergeLoops (raws : List RawLoop) : MergedLoops :=
  raws.foldl mergeLoop { loops := ∅, latches := ∅ }

/-! ### Marking the blocks -/

/-- `loop_nesting` and `loop_boundary`. -/
structure LoopState (K : Type) where
  nesting : Dict ℕ ℕ
  boundary : Dict ℕ K

namespace LoopState

variable (st : LoopState K)

/-- `loop_nesting[n] += 1`. -/
def deepen (n : ℕ) : LoopState K :=
  { st with nesting := st.nesting.insert n ((st.nesting.lookup n).getD 0 + 1) }

/-- `loop_nesting[n] = max(loop_nesting[n], 1)`. -/
def atLeastOne (n : ℕ) : LoopState K :=
  { st with nesting := st.nesting.insert n (max ((st.nesting.lookup n).getD 0) 1) }

/-- `loop_boundary[n] = 1.0`. -/
def bound (n : ℕ) : LoopState K := { st with boundary := st.boundary.insert n 1 }

end LoopState

/-- An edge that leaves a set of blocks. -/
def boundExit (nodes : Finset ℕ) (n : ℕ) (st : LoopState K) (s : ℕ) : LoopState K :=
  if s ∉ nodes then (st.bound n).bound s else st

/-- An edge that enters a set of blocks. -/
def boundEntry (nodes : Finset ℕ) (n : ℕ) (st : LoopState K) (p : ℕ) : LoopState K :=
  if p ∉ nodes then st.bound n else st

def markLoop (latches : Dict ℕ (Finset ℕ)) (st : LoopState K)
    (entry : Sigma fun _ : ℕ => Finset ℕ) : LoopState K :=
  let nodes := (listing (.loop entry.1)).list entry.2
  let st := (nodes.foldl LoopState.deepen st).bound entry.1
  let st := ((listing (.latches entry.1)).list ((latches.lookup entry.1).getD ∅)).foldl LoopState.bound st
  nodes.foldl (fun st n => (succs n).foldl (boundExit entry.2 n) st) st

/-- More than one block, or one with an edge to itself. -/
def isLoopScc (scc : Finset ℕ) : Bool :=
  1 < scc.card ∨ (scc.card = 1 ∧ ∃ n ∈ scc, n ∈ succs n)

def markSccBlock (succs preds : ℕ → List ℕ) (scc : Finset ℕ) (st : LoopState K) (n : ℕ) :
    LoopState K :=
  let st := (preds n).foldl (boundEntry scc n) (st.atLeastOne n)
  (succs n).foldl (boundExit scc n) st

def markScc (f : ℕ) (succs preds : ℕ → List ℕ) (st : LoopState K) (scc : Finset ℕ × ℕ) :
    LoopState K :=
  if isLoopScc succs scc.1 then
    ((listing (.scc f scc.2)).list scc.1).foldl (markSccBlock succs preds scc.1) st
  else st

/-- The loops of one function. -/
def loopsOfFunction (cfg : Cfg) (st : LoopState K) (func : Sigma fun _ : ℕ => Finset ℕ) :
    Prog (LoopState K) :=
  if func.2 = ∅ then pure st
  else do
    let order := blockOrder listing func.1 func.2
    let succs := funcSuccs listing cfg func.1 func.2
    let preds := funcPreds listing cfg func.1 func.2
    let dom ← dominators (entryBlock func.2 order preds) preds func.2 order
    let raws ← rawLoops preds func.2 (backEdges succs dom order)
    let merged := mergeLoops raws
    let st := merged.loops.entries.foldl (markLoop listing succs merged.latches) st
    let sccs ← computeSccsIterative (fun n => listing (.radj n)) succs order
    pure (sccs.zipIdx.foldl (markScc listing func.1 succs preds) st)

def computeLoopFeatures (cfg : Cfg) (blocks : Blocks K) (funcOfBb : Dict ℕ ℕ) :
    Prog (Blocks K) := do
  let st ← (funcToBbs funcOfBb).entries.foldlM (loopsOfFunction listing cfg)
    { nesting := ∅, boundary := ∅ }
  pure (blocks.map fun b => (b.1, (b.2.setRawAttr "loop_nesting_depth"
    ((st.nesting.lookup b.1).getD 0 : ℕ)).setRawAttr "loop_boundary_flag"
    ((st.boundary.lookup b.1).getD 0)))

end Bofuzz.Extractor
