import Bofuzz.Extractor.LoopMembership
import Bofuzz.Lib.BreadthFirst

/-! The depth of a block (`static_analysis/features_extractor.py`).

    The depth adds the number of calls from a seed to the function of the block and the number of
    edges from the entry of the function to the block. Both searches label what they reach and take
    `1 << 30` for what has no label. The entry of a function is guessed: the first of its blocks
    that has no predecessor in it, or the lowest address if there is none. -/

namespace Bofuzz.Extractor
open Loop Relation Distance BreadthFirst List AList

/-! ### The program -/

/-- The label of what has none. -/
def inf : ℕ := 2 ^ 30

/-- The labels of a search and its queue. -/
structure Labels where
  dist : Dict ℕ ℕ
  queue : List ℕ

namespace Labels

/-- A label, of a dictionary with the default `inf`. -/
def get (s : Labels) (v : ℕ) : ℕ := (s.dist.lookup v).getD inf

/-- The label as a depth. -/
def depth (s : Labels) (v : ℕ) : ℕ := if s.get v = inf then 0 else s.get v

def add (s : Labels) (v d : ℕ) : Labels := { dist := s.dist.insert v d, queue := s.queue ++ [v] }

end Labels

variable (test : ℕ → ℕ → Bool) (succs : ℕ → List ℕ)

/-- Visit the successor `y` of `x`, which gets a label if its old one and the new one pass the
    test. -/
def relax (x : ℕ) (s : Labels) (y : ℕ) : Labels :=
  let d := s.get x + 1
  if test (s.get y) d then s.add y d else s

def visit (s : Labels) : Labels :=
  match s.queue with
  | [] => s
  | x :: queue => (succs x).foldl (relax test x) { s with queue }

def labelFrom (s : Labels) : Prog Labels :=
  whileLoop (fun s => !s.queue.isEmpty) (visit test succs) s

variable (accepted : ℕ → Bool)

/-- The search of the call graph, which corrects labels that are too large. -/
def callDepths (callGraph : Dict ℕ (List ℕ)) (seeds : List ℕ) : Prog Labels :=
  labelFrom (fun old d => decide (d < old)) (fun u => (callGraph.lookup u).getD [])
    ((seeds.filter accepted).foldl (fun s seed => s.add seed 0) { dist := ∅, queue := [] })

variable (cfg : Cfg)

/-- The search of a function, which labels every block once. -/
def intraDepths (bbs : List ℕ) (entry : ℕ) : Prog Labels :=
  labelFrom (fun old _ => decide (old = inf)) (fun x => ((cfg.lookup x).getD []).filter (· ∈ bbs))
    ((Labels.mk ∅ []).add entry 0)

def cfgPreds : Dict ℕ (Finset ℕ) :=
  cfg.entries.foldl (fun preds e => e.2.foldl (fun preds v => addTo preds v e.1) preds) ∅

variable (funcOfBb : Dict ℕ ℕ)

/-- The blocks of every function, in the order of the dictionary. -/
def blockLists : Dict ℕ (List ℕ) :=
  funcOfBb.entries.foldl (fun bbs e => bbs.insert e.2 ((bbs.lookup e.2).getD [] ++ [e.1])) ∅

def funcEntryBb (preds : Dict ℕ (Finset ℕ)) (bbs : List ℕ) : ℕ :=
  match bbs.filter fun b => decide ((preds.lookup b).getD ∅ ∩ bbs.toFinset = ∅) with
  | b :: _ => b
  | [] => bbs.min?.getD 0

/-- The depths of the blocks of one function. -/
def addIntraDepths (intra : Dict ℕ ℕ) (bbs : List ℕ) : Prog (Dict ℕ ℕ) := do
  let labels ← intraDepths cfg bbs (funcEntryBb (cfgPreds cfg) bbs)
  pure (bbs.foldl (fun intra b => intra.insert b (labels.depth b)) intra)

variable {K : Type} [Field K]

def computeDepthAttribute (blocks : Blocks K) (funcOfBb : Dict ℕ ℕ)
    (callGraph : Dict ℕ (List ℕ)) (seeds : List ℕ) : Prog (Blocks K) := do
  let calls ← callDepths accepted callGraph seeds
  let intra ← (blockLists funcOfBb).entries.foldlM (fun intra e => addIntraDepths cfg intra e.2) ∅
  pure (blocks.map fun b =>
    let dFunc : ℕ := ((funcOfBb.lookup b.1).map calls.depth).getD 0
    let dIntra : ℕ := (intra.lookup b.1).getD 0
    (b.1, b.2.setRawAttr "entry_depth" (dFunc + dIntra)))

/-! ### Labelling -/

namespace Labels

theorem get_empty {queue : List ℕ} {v : ℕ} : (Labels.mk ∅ queue).get v = inf := by
  rw [get, lookup_empty, Option.getD_none]

theorem get_add {s : Labels} {v d w : ℕ} : (s.add v d).get w = if w = v then d else s.get w := by
  rw [get, add, lookup_insert_ite]
  split_ifs <;> rfl

end Labels

/-- What visiting successors does: those without a label get `d` and are put on the queue. -/
structure Relaxed (d : ℕ) (ys : List ℕ) (s t : Labels) (new : List ℕ) : Prop where
  queue : t.queue = s.queue ++ new
  mem : ∀ w, w ∈ new ↔ w ∈ ys ∧ s.get w = inf
  get : ∀ w, t.get w = if w ∈ new then d else s.get w
  nodup : new.Nodup

/-- The test lets the unlabelled pass if there is a label for them, and of the others none that has
    a label of at most `d`. -/
def Selects : Prop :=
  ∀ old d, (old = inf → d < inf → test old d = true) ∧ (old ≠ inf → old ≤ d → test old d = false)

variable {test}

theorem relaxed_foldl (htest : Selects test) {x d : ℕ} :
    ∀ (ys : List ℕ) (s : Labels), s.get x + 1 = d → (∀ w, s.get w = inf ∨ s.get w ≤ d) →
      (∀ y ∈ ys, s.get y = inf → d < inf) → ∃ new, Relaxed d ys s (ys.foldl (relax test x) s) new
  | [], s, _, _, _ => ⟨[], by simp, by simp, by simp, nodup_nil⟩
  | y :: ys, s, hx, hle, hd => by
    rw [foldl_cons]
    by_cases hy : s.get y = inf
    · have hlt : d < inf := hd y mem_cons_self hy
      have heq : relax test x s y = s.add y d := by
        rw [relax, hx, hy]
        exact if_pos ((htest inf d).1 rfl hlt)
      have hxy : x ≠ y := by
        rintro rfl
        omega
      have hx' : (s.add y d).get x + 1 = d := by rw [Labels.get_add, if_neg hxy, hx]
      have hle' : ∀ w, (s.add y d).get w = inf ∨ (s.add y d).get w ≤ d := by
        intro w
        rw [Labels.get_add]
        split_ifs
        · exact .inr le_rfl
        · exact hle w
      obtain ⟨new, hnew⟩ := relaxed_foldl htest ys (s.add y d) hx' hle' fun _ _ _ => hlt
      rw [heq]
      refine ⟨y :: new, ?_, ?_, ?_, ?_⟩
      · rw [hnew.queue, Labels.add, append_assoc, singleton_append]
      · intro w
        rw [mem_cons, mem_cons, hnew.mem, Labels.get_add]
        by_cases hw : w = y
        · simp [hw, hy]
        · simp [hw]
      · intro w
        rw [hnew.get, Labels.get_add]
        by_cases hw : w = y
        · simp [hw]
        · simp [hw]
      · refine nodup_cons.mpr ⟨fun hmem => ?_, hnew.nodup⟩
        have hget := ((hnew.mem y).mp hmem).2
        rw [Labels.get_add, if_pos rfl] at hget
        exact hlt.ne hget
    · have heq : relax test x s y = s := by
        rw [relax, hx]
        exact if_neg (by rw [(htest _ d).2 hy ((hle y).resolve_left hy)]; exact Bool.false_ne_true)
      obtain ⟨new, hnew⟩ := relaxed_foldl htest ys s hx hle fun z hz => hd z (.tail _ hz)
      rw [heq]
      refine ⟨new, hnew.queue, fun w => ?_, hnew.get, hnew.nodup⟩
      rw [hnew.mem, mem_cons]
      by_cases hw : w = y
      · simp [hw, hy]
      · simp [hw]

section
variable {ι : Type} {R : ℕ → ℕ → Prop} {S : ι → ℕ → Prop} {U : Finset ℕ} {s : Labels} {done : List ℕ}

/-- Where a labelling search stands. -/
structure Labelling (R : ℕ → ℕ → Prop) (S : ι → ℕ → Prop) (U : Finset ℕ) (s : Labels)
    (done : List ℕ) :
    Prop where
  search : Search R S s.get done s.queue
  labelled : ∀ v, v ∈ done ++ s.queue ↔ s.get v ≠ inf
  queued : ∀ v ∈ s.queue, v ∈ U

/-- What the search has yet to do: vertices without a label, and the queue. -/
def Labels.todo (U : Finset ℕ) (s : Labels) : ℕ :=
  (U.filter fun v => s.get v = inf).card + s.queue.length

theorem Labelling.depth_eq (h : Labelling R S U s done) (hqueue : s.queue = []) (v : ℕ) :
    s.depth v = Distance.depth R S v := by
  have hsearch := h.search
  have hlabelled := h.labelled v
  rw [hqueue] at hsearch hlabelled
  rw [append_nil] at hlabelled
  unfold Labels.depth
  split_ifs with hv
  · refine (Distance.depth_eq_zero fun d hdist => ?_).symm
    exact hlabelled.mp (hsearch.dist_iff.mp hdist).1 hv
  · exact (Distance.depth_eq (hsearch.dist_iff.mpr ⟨hlabelled.mpr hv, rfl⟩)).symm

variable {succs} (htest : Selects test) (hsuccs : ∀ x ∈ U, ∀ y, y ∈ succs x ↔ R x y)
  (hU : ∀ x ∈ U, ∀ y, R x y → y ∈ U) (hsmall : ∀ v, ¬ Dist R S inf v)
include htest hsuccs hU hsmall

/-- A round takes one vertex off and moves the others from the unlabelled to the queue. -/
theorem Labelling.visit (h : Labelling R S U s done) {x : ℕ} {rest : List ℕ}
    (hqueue : s.queue = x :: rest) :
    Labelling R S U (visit test succs s) (done ++ [x]) ∧
      (Extractor.visit test succs s).todo U < s.todo U := by
  have hsearch := h.search
  have hlabelled := h.labelled
  rw [hqueue] at hsearch hlabelled
  obtain ⟨hxU, hrestU⟩ := forall_mem_cons.mp (hqueue ▸ h.queued)
  have hle : ∀ w, s.get w = inf ∨ s.get w ≤ s.get x + 1 := by
    intro w
    by_cases hw : s.get w = inf
    · exact .inl hw
    · exact .inr (hsearch.level_le ((hlabelled w).mpr hw))
  have hlt : ∀ y, R x y → s.get y = inf → s.get x + 1 < inf := by
    intro y hxy hy
    have hdist := hsearch.dist_new hxy fun hmem => (hlabelled y).mp hmem hy
    by_contra hge
    exact no_dist_of_empty hsmall _ (not_lt.mp hge) y hdist
  have hvisit : Extractor.visit test succs s = (succs x).foldl (relax test x) { s with queue := rest } := by
    rw [Extractor.visit, hqueue]
  obtain ⟨new, hnew⟩ := relaxed_foldl htest (succs x) { s with queue := rest } (x := x) rfl hle
    fun y hy => hlt y ((hsuccs x hxU y).mp hy)
  rw [← hvisit] at hnew
  generalize Extractor.visit test succs s = t at hnew
  have hmem : ∀ w, w ∈ new ↔ R x w ∧ w ∉ done ++ x :: rest := by
    intro w
    rw [hnew.mem, hsuccs x hxU, hlabelled, not_not]
    rfl
  have hget : ∀ w, t.get w = if w ∈ new then s.get x + 1 else s.get w := hnew.get
  have hnewU : ∀ w ∈ new, w ∈ U := fun w hw => hU x hxU w ((hmem w).mp hw).1
  have hfree : ∀ w ∈ new, s.get w = inf ∧ t.get w ≠ inf := by
    intro w hw
    have hxw := (hmem w).mp hw
    have hinf := not_not.mp (mt (hlabelled w).mpr hxw.2)
    rw [hget, if_pos hw]
    exact ⟨hinf, (hlt w hxw.1 hinf).ne⟩
  refine ⟨⟨?_, ?_, ?_⟩, ?_⟩
  · rw [hnew.queue]
    refine hsearch.step hmem (fun w hw => ?_) fun w hw => ?_
    · rw [hget, if_neg fun hmem' => ((hmem w).mp hmem').2 hw]
    · rw [hget, if_pos hw]
  · intro w
    rw [hnew.queue]
    have hlist : w ∈ done ++ [x] ++ (rest ++ new) ↔ w ∈ done ++ x :: rest ∨ w ∈ new := by simp; tauto
    rw [hlist, hlabelled]
    by_cases hw : w ∈ new
    · simp [hw, (hfree w hw).2]
    · simp [hw, hget w]
  · rw [hnew.queue]
    exact forall_mem_append.mpr ⟨hrestU, hnewU⟩
  · have hsplit : (U.filter fun v => s.get v = inf) =
        (U.filter fun v => t.get v = inf) ∪ new.toFinset := by
      ext w
      by_cases hw : w ∈ new
      · simp [hw, hnewU w hw, (hfree w hw).1]
      · simp [hw, hget w]
    have hdisjoint : Disjoint (U.filter fun v => t.get v = inf) new.toFinset := by
      refine Finset.disjoint_left.mpr fun w hw hw' => ?_
      exact (hfree w (mem_toFinset.mp hw')).2 (Finset.mem_filter.mp hw).2
    unfold Labels.todo
    rw [hsplit, Finset.card_union_of_disjoint hdisjoint, toFinset_card_of_nodup hnew.nodup,
      hnew.queue, hqueue, length_append, length_cons]
    dsimp only
    omega

/-- The search ends, with the distances as depths, if none of them is as large as `inf`. -/
theorem labelFrom_ends (hqueue : ∀ v ∈ s.queue, v ∈ U)
    (hsource : ∀ v, v ∈ s.queue ↔ ∃ i, S i v)
    (hget : ∀ v, s.get v = if v ∈ s.queue then 0 else inf) :
    Ends (labelFrom test succs s) fun t => ∀ v, t.depth v = depth R S v := by
  have hstart : Labelling R S U s [] := by
    refine ⟨search_start (fun v hv => ?_) hsource, fun v => ?_, hqueue⟩
    · rw [hget, if_pos hv]
    · rw [nil_append, hget]
      by_cases hv : v ∈ s.queue
      · simp [hv, inf]
      · simp [hv]
  refine (Ends.whileLoop (I := fun s => ∃ done, Labelling R S U s done) (Labels.todo U) ⟨[], hstart⟩
    ?_).mono ?_
  · rintro s ⟨done, h⟩ hcond
    obtain ⟨x, rest, hrest⟩ := exists_cons_of_ne_nil (by simpa using hcond)
    obtain ⟨hnext, hlt⟩ := h.visit htest hsuccs hU hsmall hrest
    exact ⟨⟨done ++ [x], hnext⟩, hlt⟩
  · rintro t ⟨⟨done, h⟩, hcond⟩
    exact h.depth_eq (by simpa using hcond)

end

/-! ### Calls -/

/-- The accepted seeds. -/
def acceptedSeeds (seeds : List ℕ) (_ : Unit) (f : ℕ) : Prop :=
  f ∈ seeds ∧ accepted f = true

theorem get_foldl_add (vs : List ℕ) (s : Labels)
    (hget : ∀ v, s.get v = if v ∈ s.queue then 0 else inf) (v : ℕ) :
    (vs.foldl (fun s seed => s.add seed 0) s).queue = s.queue ++ vs ∧
      (vs.foldl (fun s seed => s.add seed 0) s).get v = if v ∈ s.queue ++ vs then 0 else inf := by
  induction vs generalizing s with
  | nil => simp [hget]
  | cons w vs ih =>
    have hadd : ∀ v, (s.add w 0).get v = if v ∈ (s.add w 0).queue then 0 else inf := by
      intro v
      rw [Labels.get_add, hget, Labels.add]
      by_cases hv : v = w
      · simp [hv]
      · simp [hv]
    have hlist : (s.add w 0).queue ++ vs = s.queue ++ w :: vs := by simp [Labels.add]
    rw [foldl_cons, ← hlist]
    exact ih (s.add w 0) hadd

theorem callDepths_ends (callGraph : Dict ℕ (List ℕ)) (seeds : List ℕ)
    (hsmall : ∀ f, ¬ Dist (Edge callGraph) (acceptedSeeds accepted seeds) inf f) :
    Ends (callDepths accepted callGraph seeds) fun calls =>
      ∀ f, calls.depth f = depth (Edge callGraph) (acceptedSeeds accepted seeds) f := by
  have hstart := get_foldl_add (seeds.filter accepted) { dist := ∅, queue := [] } fun v => by
    rw [Labels.get_empty, if_neg not_mem_nil]
  have hqueue := (hstart 0).1
  rw [nil_append] at hqueue
  refine labelFrom_ends (U := seeds.toFinset ∪ (callGraph.entries.flatMap (·.2)).toFinset) ?_ ?_ ?_
    hsmall ?_ ?_ fun v => ?_
  · intro old d
    refine ⟨?_, fun _ hle => decide_eq_false (not_lt.mpr hle)⟩
    rintro rfl hd
    exact decide_eq_true hd
  · intro x _ y
    exact mem_lookup_iff_edge
  · rintro x - y ⟨ys, hlookup, hy⟩
    refine Finset.mem_union_right _ (mem_toFinset.mpr (mem_flatMap.mpr ⟨⟨x, ys⟩, ?_, hy⟩))
    exact mem_lookup_iff.mp hlookup
  · intro v hv
    rw [hqueue] at hv
    exact Finset.mem_union_left _ (mem_toFinset.mpr (mem_of_mem_filter hv))
  · intro v
    rw [hqueue, mem_filter, Unique.exists_iff]
    rfl
  · rw [(hstart v).2, hqueue, nil_append]

/-! ### Functions -/

/-- The blocks of a function in the order of the dictionary. -/
def orderedBlocks (f : ℕ) : List ℕ :=
  (funcOfBb.entries.filter fun e => e.2 = f).map (·.1)

/-- The block that the program takes for the entry: the first one without a predecessor among the
    blocks, or if all have one the lowest address. -/
def HeuristicEntry (cfg : Cfg) (bbs : List ℕ) (entry : ℕ) : Prop :=
  (∃ before after, bbs = before ++ entry :: after ∧ (∀ u, ¬ FuncEdge cfg bbs.toFinset u entry) ∧
    ∀ b ∈ before, ∃ u, FuncEdge cfg bbs.toFinset u b) ∨
  ((∀ b ∈ bbs, ∃ u, FuncEdge cfg bbs.toFinset u b) ∧ entry ∈ bbs ∧ ∀ b ∈ bbs, entry ≤ b)

variable {funcOfBb : Dict ℕ ℕ}

theorem mem_orderedBlocks {f b : ℕ} :
    b ∈ orderedBlocks funcOfBb f ↔ funcOfBb.lookup b = some f := by
  unfold orderedBlocks
  rw [mem_map]
  constructor
  · rintro ⟨⟨c, g⟩, he, rfl⟩
    obtain ⟨hmem, hg⟩ := mem_filter.mp he
    obtain rfl := of_decide_eq_true hg
    exact mem_lookup_iff.mpr hmem
  · intro hlookup
    exact ⟨⟨b, f⟩, mem_filter.mpr ⟨mem_lookup_iff.mp hlookup, decide_eq_true rfl⟩, rfl⟩

theorem lookup_foldl_blockLists {f : ℕ} (es : List (Sigma fun _ : ℕ => ℕ)) (bbs : Dict ℕ (List ℕ)) :
    ((es.foldl (fun (bbs : Dict ℕ (List ℕ)) e => bbs.insert e.2 ((bbs.lookup e.2).getD [] ++ [e.1]))
      bbs).lookup f).getD [] = (bbs.lookup f).getD [] ++ (es.filter fun e => e.2 = f).map (·.1) := by
  induction es generalizing bbs with
  | nil => simp
  | cons e es ih =>
    rw [foldl_cons, ih]
    by_cases hf : e.2 = f
    · subst hf
      simp
    · simp [hf, Ne.symm hf]

variable {e : Sigma fun _ : ℕ => List ℕ}

theorem mem_entries_blockLists (he : e ∈ (blockLists funcOfBb).entries) :
    e.2 = orderedBlocks funcOfBb e.1 := by
  have hlookup : (blockLists funcOfBb).lookup e.1 = some e.2 := mem_lookup_iff.mpr he
  have hlists : ((blockLists funcOfBb).lookup e.1).getD [] = _ ++ _ := lookup_foldl_blockLists _ ∅
  rwa [hlookup] at hlists

theorem ne_nil_of_mem_blockLists (he : e ∈ (blockLists funcOfBb).entries) : e.2 ≠ [] := by
  have hne : ∀ f bbs, (blockLists funcOfBb).lookup f = some bbs → bbs ≠ [] := by
    refine List.foldlRecOn (motive := fun lists : Dict ℕ (List ℕ) => ∀ f bbs,
      lists.lookup f = some bbs → bbs ≠ []) funcOfBb.entries _ ?_ fun lists hlists e _ f bbs hlookup => ?_
    · intro f bbs hlookup
      cases hlookup
    · rw [lookup_insert_ite] at hlookup
      split_ifs at hlookup
      · simp [← Option.some.inj hlookup]
      · exact hlists f bbs hlookup
  exact hne e.1 e.2 (mem_lookup_iff.mpr he)

theorem exists_entry_blockLists {f b : ℕ} (hb : funcOfBb.lookup b = some f) :
    ∃ e ∈ (blockLists funcOfBb).entries, e.1 = f := by
  have hlists : ((blockLists funcOfBb).lookup f).getD [] = orderedBlocks funcOfBb f :=
    lookup_foldl_blockLists _ ∅
  cases hlookup : (blockLists funcOfBb).lookup f with
  | none =>
    have hmem := mem_orderedBlocks.mpr hb
    rw [← hlists, hlookup] at hmem
    exact absurd hmem not_mem_nil
  | some bbs => exact ⟨⟨f, bbs⟩, mem_lookup_iff.mp hlookup, rfl⟩

variable {cfg : Cfg}

theorem mem_cfgPreds {u v : ℕ} : u ∈ ((cfgPreds cfg).lookup v).getD ∅ ↔ Edge cfg u v := by
  rw [cfgPreds, mem_turned]
  rfl

variable {bbs : List ℕ}

/-- A block has a predecessor in the function. -/
theorem preds_inter_eq_empty {b : ℕ} (hb : b ∈ bbs) :
    ((cfgPreds cfg).lookup b).getD ∅ ∩ bbs.toFinset = ∅ ↔ ∀ u, ¬ FuncEdge cfg bbs.toFinset u b := by
  rw [Finset.eq_empty_iff_forall_notMem]
  refine forall_congr' fun u => not_congr ?_
  rw [Finset.mem_inter, mem_cfgPreds, FuncEdge]
  simp only [mem_toFinset, hb, true_and]
  exact and_comm

variable {entry : ℕ}

theorem heuristicEntry_iff :
    HeuristicEntry cfg bbs entry ↔ bbs ≠ [] ∧ funcEntryBb (cfgPreds cfg) bbs = entry := by
  have hpred : ∀ {b}, b ∈ bbs → (decide (((cfgPreds cfg).lookup b).getD ∅ ∩ bbs.toFinset = ∅) = true ↔
      ∀ u, ¬ FuncEdge cfg bbs.toFinset u b) := by
    intro b hb
    rw [decide_eq_true_eq]
    exact preds_inter_eq_empty hb
  have hmin : bbs ≠ [] → ∀ m, bbs.min?.getD 0 = m ↔ m ∈ bbs ∧ ∀ b ∈ bbs, m ≤ b := by
    intro hne m
    cases hm : bbs.min? with
    | none => exact absurd (min?_eq_none_iff.mp hm) hne
    | some k =>
      rw [Option.getD_some, ← min?_eq_some_iff, hm, Option.some.injEq]
  unfold HeuristicEntry funcEntryBb
  split
  · next b rest hfilter =>
    obtain ⟨before, after, hbbs, hbefore, hb, -⟩ := filter_eq_cons_iff.mp hfilter
    have hmem : b ∈ bbs := by simp [hbbs]
    constructor
    · rintro (⟨before', after', hbbs', hnone, hsome⟩ | ⟨hall, -⟩)
      · have hentry : entry ∈ bbs := by simp [hbbs']
        have hbefore' : ∀ x ∈ before',
            ¬ decide (((cfgPreds cfg).lookup x).getD ∅ ∩ bbs.toFinset = ∅) = true := by
          intro x hx hx'
          obtain ⟨u, hedge⟩ := hsome x hx
          exact (hpred (by simp [hbbs', hx])).mp hx' u hedge
        have hfirst := filter_eq_cons_iff.mpr
          ⟨before', after', hbbs', hbefore', (hpred hentry).mpr hnone, rfl⟩
        rw [hfilter] at hfirst
        exact ⟨ne_nil_of_mem hmem, (List.cons.inj hfirst).1⟩
      · obtain ⟨u, hedge⟩ := hall b hmem
        exact absurd hedge ((hpred hmem).mp hb u)
    · rintro ⟨-, rfl⟩
      refine .inl ⟨before, after, hbbs, (hpred hmem).mp hb, fun x hx => ?_⟩
      have hx' := mt (hpred (by simp [hbbs, hx])).mpr (hbefore x hx)
      exact not_forall_not.mp hx'
  · next hfilter =>
    have hall : ∀ b ∈ bbs, ∃ u, FuncEdge cfg bbs.toFinset u b := fun b hb =>
      not_forall_not.mp (mt (hpred hb).mpr (filter_eq_nil_iff.mp hfilter b hb))
    constructor
    · rintro (⟨before', after', hbbs', hnone, -⟩ | ⟨-, hentry, hle⟩)
      · obtain ⟨u, hedge⟩ := hall entry (by simp [hbbs'])
        exact absurd hedge (hnone u)
      · have hne := ne_nil_of_mem hentry
        exact ⟨hne, (hmin hne entry).mpr ⟨hentry, hle⟩⟩
    · rintro ⟨hne, hentry⟩
      exact .inr ⟨hall, (hmin hne entry).mp hentry⟩

/-- A single start. -/
def startAt (entry : ℕ) (_ : Unit) (v : ℕ) : Prop := v = entry

theorem intraDepths_ends (cfg : Cfg) (hentry : entry ∈ bbs)
    (hsmall : ∀ b, ¬ Dist (FuncEdge cfg bbs.toFinset) (startAt entry) inf b) :
    Ends (intraDepths cfg bbs entry) fun labels =>
      ∀ b, labels.depth b = depth (FuncEdge cfg bbs.toFinset) (startAt entry) b := by
  refine labelFrom_ends (U := bbs.toFinset) ?_ ?_ ?_ hsmall ?_ ?_ fun v => ?_
  · intro old d
    refine ⟨?_, fun hne _ => decide_eq_false hne⟩
    rintro rfl -
    exact decide_eq_true rfl
  · intro x hx y
    rw [mem_filter, mem_lookup_iff_edge, decide_eq_true_eq, FuncEdge, mem_toFinset (a := y)]
    tauto
  · exact fun x _ y hxy => hxy.2.1
  · exact forall_mem_singleton.mpr (mem_toFinset.mpr hentry)
  · intro v
    rw [Labels.add, nil_append, mem_singleton, Unique.exists_iff]
    rfl
  · rw [Labels.get_add, Labels.get_empty, Labels.add, nil_append]
    simp

theorem toFinset_orderedBlocks (f : ℕ) :
    (orderedBlocks funcOfBb f).toFinset = functionBlocks funcOfBb f := by
  ext b
  rw [mem_toFinset, mem_orderedBlocks, mem_functionBlocks]

variable (accepted : ℕ → Bool) (cfg : Cfg) (funcOfBb : Dict ℕ ℕ) (callGraph : Dict ℕ (List ℕ))
  (seeds : List ℕ)

/-- Calls from an accepted seed to the function, zero if there is no way. -/
noncomputable def callDepth (f : ℕ) : ℕ :=
  Distance.depth (Edge callGraph) (acceptedSeeds accepted seeds) f

/-- Edges inside the function from the given block, zero if there is no way. -/
noncomputable def depthFrom (f entry b : ℕ) : ℕ :=
  Distance.depth (FuncEdge cfg (functionBlocks funcOfBb f)) (startAt entry) b

/-- No distance is as large as the label of what is not reached. -/
structure BelowInf : Prop where
  calls : ∀ f, ¬ Dist (Edge callGraph) (acceptedSeeds accepted seeds) inf f
  intra : ∀ f entry, HeuristicEntry cfg (orderedBlocks funcOfBb f) entry →
    ∀ b, ¬ Dist (FuncEdge cfg (functionBlocks funcOfBb f)) (startAt entry) inf b

variable {accepted cfg funcOfBb callGraph seeds}

theorem HeuristicEntry.mem (h : HeuristicEntry cfg bbs entry) : entry ∈ bbs := by
  rcases h with ⟨before, after, hbbs, -⟩ | ⟨-, hmem, -⟩
  · simp [hbbs]
  · exact hmem

section
variable (hsmall : BelowInf accepted cfg funcOfBb callGraph seeds)
include hsmall

theorem addIntraDepths_ends {f : ℕ}
    (hentry : HeuristicEntry cfg (orderedBlocks funcOfBb f) entry) (intra : Dict ℕ ℕ) :
    Ends (addIntraDepths cfg intra (orderedBlocks funcOfBb f)) fun intra' => ∀ b, intra'.lookup b =
      if funcOfBb.lookup b = some f then some (depthFrom cfg funcOfBb f entry b) else intra.lookup b := by
  have hguess := (heuristicEntry_iff.mp hentry).2
  have hbelow := hsmall.intra f entry hentry
  rw [← toFinset_orderedBlocks] at hbelow
  refine .bind (intraDepths_ends cfg (hguess.symm ▸ hentry.mem) (hguess.symm ▸ hbelow)) fun labels hlabels =>
    .pure fun b => ?_
  rw [lookup_foldl_insert, hlabels, hguess, toFinset_orderedBlocks]
  simp only [mem_orderedBlocks]
  rfl

theorem intra_ends :
    Ends ((blockLists funcOfBb).entries.foldlM (fun intra e => addIntraDepths cfg intra e.2) ∅)
      fun intra => ∀ f entry, HeuristicEntry cfg (orderedBlocks funcOfBb f) entry →
        ∀ b, funcOfBb.lookup b = some f → intra.lookup b = some (depthFrom cfg funcOfBb f entry b) := by
  refine (Ends.foldlM (I := fun done (intra : Dict ℕ ℕ) => ∀ e ∈ done, ∀ entry,
    HeuristicEntry cfg (orderedBlocks funcOfBb e.1) entry → ∀ b, funcOfBb.lookup b = some e.1 →
      intra.lookup b = some (depthFrom cfg funcOfBb e.1 entry b)) (by simp) ?_).mono ?_
  · intro done e he intra hintra
    have hbbs := mem_entries_blockLists he
    have hne := ne_nil_of_mem_blockLists he
    rw [hbbs] at hne ⊢
    refine (addIntraDepths_ends hsmall (heuristicEntry_iff.mpr ⟨hne, rfl⟩) intra).mono
      fun intra' hintra' e' he' entry hentry b hb => ?_
    rw [hintra']
    by_cases hsame : e'.1 = e.1
    · rw [hsame] at hb hentry ⊢
      rw [if_pos hb, (heuristicEntry_iff.mp hentry).2]
    have hdone := (mem_append.mp he').resolve_right fun he' =>
      hsame (congrArg Sigma.fst (mem_singleton.mp he'))
    rw [if_neg fun hb' => hsame (Option.some.inj (hb.symm.trans hb'))]
    exact hintra e' hdone entry hentry b hb
  · intro intra hintra f entry hentry b hb
    obtain ⟨e, he, rfl⟩ := exists_entry_blockLists hb
    exact hintra e he entry hentry b hb

theorem computeDepthAttribute_ends (blocks : Blocks K) :
    Ends (computeDepthAttribute accepted cfg blocks funcOfBb callGraph seeds) fun result =>
      List.Forall₂ (fun before after => after.1 = before.1 ∧
        ∀ f entry, HeuristicEntry cfg (orderedBlocks funcOfBb f) entry →
          funcOfBb.lookup before.1 = some f → after.2.getRawAttr "entry_depth" =
            some (((callDepth accepted callGraph seeds f + depthFrom cfg funcOfBb f entry before.1 : ℕ)) : K))
        blocks result := by
  refine .bind (callDepths_ends accepted callGraph seeds hsmall.calls) fun calls hcalls =>
    .bind (intra_ends hsmall) fun intra hintra => .pure ?_
  refine forall₂_map_right_iff.mpr (forall₂_same.mpr ?_)
  rintro ⟨ea, b⟩ -
  refine ⟨rfl, fun f entry hentry hf => ?_⟩
  simp only [Block.getRawAttr, Block.setRawAttr, lookup_insert, Option.getD_some, hf,
    hintra f entry hentry ea hf, Option.map_some, hcalls, Nat.cast_add]
  rfl

end

/-! ### The guessed entry and the real one -/

/-- The guessed entry gives the depths of the real one: it is the real one, or neither reaches the
    other and all other blocks are as far from the one as from the other. -/
def EntryFits (cfg : Cfg) (funcOfBb : Dict ℕ ℕ) (f entry : ℕ) : Prop :=
  entry = f ∨
    (¬ ReflTransGen (FuncEdge cfg (functionBlocks funcOfBb f)) f entry ∧
      ¬ ReflTransGen (FuncEdge cfg (functionBlocks funcOfBb f)) entry f ∧
      ∀ b, b ≠ entry → b ≠ f → ∀ d,
        Dist (FuncEdge cfg (functionBlocks funcOfBb f)) (startAt entry) d b ↔
        Dist (FuncEdge cfg (functionBlocks funcOfBb f)) (startAt f) d b)

section
variable {R : ℕ → ℕ → Prop} {s v : ℕ}

theorem dist_startAt_zero : Dist R (startAt s) 0 v ↔ v = s := by
  rw [dist_zero, Unique.exists_iff]
  rfl

theorem exists_dist_startAt : (∃ d, Dist R (startAt s) d v) ↔ ReflTransGen R s v := by
  rw [← exists_walk_iff]
  constructor
  · rintro ⟨d, ⟨_, u, rfl, hwalk⟩, -⟩
    exact ⟨d, hwalk⟩
  · rintro ⟨d, hwalk⟩
    obtain ⟨k, -, hk⟩ := exists_dist (S := startAt s) (i := ()) ⟨s, rfl, hwalk⟩
    exact ⟨k, hk⟩

end

theorem entryFits_iff {f : ℕ} (hf : funcOfBb.lookup f = some f)
    (hentry : funcOfBb.lookup entry = some f) :
    (∀ b, funcOfBb.lookup b = some f → depthFrom cfg funcOfBb f entry b = depthFrom cfg funcOfBb f f b) ↔
      EntryFits cfg funcOfBb f entry := by
  have hmem : ∀ u v, FuncEdge cfg (functionBlocks funcOfBb f) u v → funcOfBb.lookup v = some f :=
    fun _ _ hedge => mem_functionBlocks.mp hedge.2.1
  unfold depthFrom EntryFits
  generalize FuncEdge cfg (functionBlocks funcOfBb f) = R at hmem
  have hself : ∀ s, depth R (startAt s) s = 0 := fun s => depth_eq (dist_startAt_zero.mpr rfl)
  constructor
  · intro hdepth
    have hunreached : ∀ {s v}, s ≠ v → depth R (startAt s) v = 0 → ¬ ReflTransGen R s v := by
      intro s v hne hzero hreach
      obtain ⟨d, hd⟩ := exists_dist_startAt.mpr hreach
      rw [depth_eq hd] at hzero
      exact hne (dist_startAt_zero.mp (hzero ▸ hd)).symm
    refine or_iff_not_imp_left.mpr fun hne => ⟨hunreached (Ne.symm hne)
      ((hdepth entry hentry).symm.trans (hself entry)), hunreached hne
      ((hdepth f hf).trans (hself f)), fun b hbe hbf d => ?_⟩
    cases d with
    | zero => rw [dist_startAt_zero, dist_startAt_zero, iff_false_intro hbe, iff_false_intro hbf]
    | succ d =>
      have hb : ∀ {s}, Dist R (startAt s) (d + 1) b → funcOfBb.lookup b = some f := by
        intro s hd
        obtain ⟨-, u, -, hedge⟩ := dist_succ.mp hd
        exact hmem u b hedge
      exact ⟨fun hd => dist_of_depth_eq (hdepth b (hb hd)) hd,
        fun hd => dist_of_depth_eq (hdepth b (hb hd)).symm hd⟩
  · rintro (rfl | ⟨hfe, hef, hother⟩) b hb
    · rfl
    have hzero : ∀ {s v}, ¬ ReflTransGen R s v → depth R (startAt s) v = 0 := fun hreach =>
      depth_eq_zero fun d hd => hreach (exists_dist_startAt.mp ⟨d, hd⟩)
    by_cases hbe : b = entry
    · rw [hbe, hself, hzero hfe]
    · by_cases hbf : b = f
      · rw [hbf, hself, hzero hef]
      · exact depth_congr (hother b hbe hbf)

/-- Programs with at most `1 << 30` functions and blocks are small enough. -/
theorem belowInf_of_card (funcs : Finset ℕ) (hseeds : ∀ f ∈ seeds, f ∈ funcs)
    (hcalls : ∀ f g, Edge callGraph f g → g ∈ funcs) (hfuncs : funcs.card ≤ inf)
    (hblocks : funcOfBb.keys.length ≤ inf) : BelowInf accepted cfg funcOfBb callGraph seeds where
  calls f hdist := by
    have hlt := dist_lt_card funcs (fun _ s hs => hseeds s hs.1) hcalls hdist
    exact absurd hfuncs (not_le.mpr hlt)
  intra f entry hentry b hdist := by
    have hsource : ∀ i s, startAt entry i s → s ∈ functionBlocks funcOfBb f := by
      rintro _ s rfl
      exact mem_functionBlocks.mpr (mem_orderedBlocks.mp hentry.mem)
    have hlt := dist_lt_card (functionBlocks funcOfBb f) hsource (fun _ _ hedge => hedge.2.1) hdist
    have hle : (functionBlocks funcOfBb f).card ≤ funcOfBb.keys.length :=
      (Finset.card_filter_le _ _).trans (toFinset_card_le _)
    omega

/-- Below the label of what is not reached, the depths are those from the start of each function
    just if the guessed entries fit. -/
theorem entry_depth_iff (accepted : ℕ → Bool) (cfg : Cfg) (blocks : Blocks ℚ) (funcOfBb : Dict ℕ ℕ)
    (callGraph : Dict ℕ (List ℕ)) (seeds : List ℕ)
    (hstart : ∀ b f, funcOfBb.lookup b = some f → funcOfBb.lookup f = some f)
    (hblocks : ∀ b, b ∈ blocks.map Prod.fst ↔ b ∈ funcOfBb)
    (hsmall : BelowInf accepted cfg funcOfBb callGraph seeds) :
    Ends (computeDepthAttribute accepted cfg blocks funcOfBb callGraph seeds) fun result =>
      result.map Prod.fst = blocks.map Prod.fst ∧
      ((∀ b ∈ result, ∀ f, funcOfBb.lookup b.1 = some f → b.2.getRawAttr "entry_depth" =
          some ((callDepth accepted callGraph seeds f + depthFrom cfg funcOfBb f f b.1 : ℕ) : ℚ)) ↔
        ∀ f entry, HeuristicEntry cfg (orderedBlocks funcOfBb f) entry → EntryFits cfg funcOfBb f entry) := by
  refine (computeDepthAttribute_ends hsmall blocks).mono fun result hresult => ?_
  have hkeys : result.map Prod.fst = blocks.map Prod.fst := by
    clear hblocks
    induction hresult with
    | nil => rfl
    | cons hhead _ ih => rw [map_cons, map_cons, hhead.1, ih]
  have hattr : ∀ b ∈ result, ∀ f entry, HeuristicEntry cfg (orderedBlocks funcOfBb f) entry →
      funcOfBb.lookup b.1 = some f → b.2.getRawAttr "entry_depth" =
        some ((callDepth accepted callGraph seeds f + depthFrom cfg funcOfBb f entry b.1 : ℕ) : ℚ) := by
    clear hblocks hkeys
    induction hresult with
    | nil => simp
    | cons hhead _ ih => exact forall_mem_cons.mpr ⟨hhead.1 ▸ hhead.2, ih⟩
  refine ⟨hkeys, fun hall f entry hentry => ?_, fun hfits b hb f hf => ?_⟩
  · have hentry' := mem_orderedBlocks.mp hentry.mem
    refine (entryFits_iff (hstart entry f hentry') hentry').mp fun b hb => ?_
    have hmem : b ∈ result.map Prod.fst := by
      rw [hkeys, hblocks]
      exact lookup_isSome.mp (by rw [hb]; rfl)
    obtain ⟨⟨ea, block⟩, hblock, rfl⟩ := mem_map.mp hmem
    have heq := (hattr _ hblock f entry hentry hb).symm.trans (hall _ hblock f hb)
    exact Nat.add_left_cancel (Nat.cast_injective (Option.some.inj heq))
  · have hne : orderedBlocks funcOfBb f ≠ [] := ne_nil_of_mem (mem_orderedBlocks.mpr hf)
    have hentry : HeuristicEntry cfg (orderedBlocks funcOfBb f) _ := heuristicEntry_iff.mpr ⟨hne, rfl⟩
    have hentry' := mem_orderedBlocks.mp hentry.mem
    rw [hattr b hb f _ hentry hf,
      (entryFits_iff (hstart _ f hentry') hentry').mpr (hfits f _ hentry) b.1 hf]

namespace Demo

/-- A loop through the entry of a function, with a chunk below the entry behind it. -/
def chunkCfg : Cfg := AList.insert 16 [32] (AList.insert 32 [16, 8] (AList.insert 8 [] ∅))

def loopFunc : Dict ℕ ℕ := AList.insert 16 16 (AList.insert 32 16 ∅)

def chunkFunc : Dict ℕ ℕ := AList.insert 8 16 loopFunc

def chunkBlocks : Blocks ℚ := [(16, {}), (32, {}), (8, {})]

theorem belowInf (hblocks : funcOfBb.keys.length ≤ 3) :
    BelowInf (fun _ => true) chunkCfg funcOfBb ∅ [16] := by
  have hinf : 3 ≤ inf := by decide
  refine belowInf_of_card {16} (by simp) ?_ ?_ (hblocks.trans hinf)
  · rintro f g ⟨gs, hgs, -⟩
    cases hgs
  · exact le_trans (by decide) hinf

end Demo

/-- Without the chunk the lowest address is the entry. -/
theorem entry_depth_demo : Ends (computeDepthAttribute (fun _ => true) Demo.chunkCfg
      [(16, {}), (32, {})] Demo.loopFunc ∅ [16]) fun result =>
    ∀ b ∈ result, ∀ f, Demo.loopFunc.lookup b.1 = some f → b.2.getRawAttr "entry_depth" =
      some ((callDepth (fun _ => true) ∅ [16] f + depthFrom Demo.chunkCfg Demo.loopFunc f f b.1 : ℕ) : ℚ) := by
  have hfunc : ∀ {b f}, Demo.loopFunc.lookup b = some f → f = 16 := by
    intro b f hb
    have hmem : (⟨b, f⟩ : Sigma fun _ : ℕ => ℕ) ∈ [⟨16, 16⟩, ⟨32, 16⟩] := mem_lookup_iff.mp hb
    rcases mem_cons.mp hmem with heq | hmem
    · cases heq
      rfl
    · cases mem_singleton.mp hmem
      rfl
  refine (entry_depth_iff _ _ _ _ _ _ ?_ ?_ (Demo.belowInf (by decide))).mono fun result hresult =>
    hresult.2.mpr fun f entry hentry => .inl ?_
  · intro b f hb
    rw [hfunc hb]
    decide
  · exact fun b => Iff.rfl
  · obtain rfl := hfunc (mem_orderedBlocks.mp hentry.mem)
    rw [← (heuristicEntry_iff.mp hentry).2]
    decide +kernel

/-- With it the chunk is taken for the entry, and the block behind the real entry has depth zero. -/
theorem chunk_taken_for_entry :
    Ends (computeDepthAttribute (fun _ => true) Demo.chunkCfg Demo.chunkBlocks Demo.chunkFunc ∅ [16])
      (fun result => result.map (fun b => (b.1, b.2.getRawAttr "entry_depth")) =
        [(16, some 0), (32, some 0), (8, some 0)]) ∧
    callDepth (fun _ => true) ∅ [16] 16 + depthFrom Demo.chunkCfg Demo.chunkFunc 16 16 32 = 1 := by
  constructor
  · obtain ⟨result, hrun, hdepths⟩ : ∃ result, computeDepthAttribute (fun _ => true) Demo.chunkCfg
        Demo.chunkBlocks Demo.chunkFunc ∅ [16] 4 = some result ∧
        result.map (fun b => (b.1, b.2.getRawAttr "entry_depth")) =
          [(16, some 0), (32, some 0), (8, some 0)] :=
      Option.map_eq_some_iff.mp (by decide +kernel)
    refine ((computeDepthAttribute_ends (Demo.belowInf (by decide)) _).eq_of_eq_some hrun).mono ?_
    rintro _ rfl
    exact hdepths
  · have hcall : callDepth (fun _ => true) ∅ [16] 16 = 0 :=
      depth_eq (dist_zero.mpr ⟨(), mem_singleton_self 16, rfl⟩)
    have hedge : FuncEdge Demo.chunkCfg (functionBlocks Demo.chunkFunc 16) 16 32 :=
      ⟨by decide, by decide, by decide⟩
    have hdist : Dist (FuncEdge Demo.chunkCfg (functionBlocks Demo.chunkFunc 16)) (startAt 16) 1 32 := by
      refine dist_succ.mpr ⟨fun k hk hzero => ?_, 16, dist_startAt_zero.mpr rfl, hedge⟩
      obtain rfl := Nat.le_zero.mp hk
      exact absurd (dist_startAt_zero.mp hzero) (by decide)
    rw [hcall, depthFrom, depth_eq hdist]

end Bofuzz.Extractor
