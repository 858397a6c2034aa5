import Bofuzz.Libafl.Nautilus.Mutation

/-! The chunk store (`common/nautilus/grammartec/chunkstore.rs`).

    A chunk is the position of a small subtree whose output has not been seen before, filed under
    its nonterminal. The files that the chunks are written to are left out, and what a subtree is
    unparsed to is a parameter. -/

namespace Bofuzz.Nautilus
open Bofuzz.Rand Result Preorder List Drawing

variable {G : Grammar} {R : Type} [Rand R]

structure ChunkStore (G : Grammar) where
  ntsToChunks : HashMap NTermId (List (ℕ × ℕ)) := fun _ => none
  seenOutputs : List (List UInt8) := []
  trees : List (Tree G) := []

variable (unparse : Tree G → ℕ → List UInt8)

/-- One round of the loop of `add_tree`, with `contains_new_chunk`. -/
def addChunk (tree : Tree G) (s : ChunkStore G × Bool) (i : ℕ) :
    Except Panic (ChunkStore G × Bool) := do
  if 30 < (← index tree.sizes i) then return s
  else
    let buffer := unparse tree i
    if buffer ∈ s.1.seenOutputs then return s
    else
      let nt := (← index tree.rules i).nonterm
      let chunks := (s.1.ntsToChunks nt).getD [] ++ [(s.1.trees.length, i)]
      return ({ s.1 with seenOutputs := buffer :: s.1.seenOutputs
                         ntsToChunks := Function.update s.1.ntsToChunks nt (some chunks) }, true)

variable (cks : ChunkStore G)

def ChunkStore.addTree (tree : Tree G) : Except Panic (ChunkStore G) := do
  let out ← (List.range tree.rules.length).foldlM (addChunk unparse tree) (cks, false)
  return if out.2 then { out.1 with trees := out.1.trees ++ [tree] } else out.1

/-- The filter of `get_alternative_to`: the chunks whose first rule is another one. -/
def ChunkStore.others (cks : ChunkStore G) (r : G.RuleId) :
    List (ℕ × ℕ) → Except Panic (List (ℕ × ℕ))
  | [] => .ok []
  | c :: chunks => do
    let tree ← index cks.trees c.1
    let node ← index tree.rules c.2
    let rest ← cks.others r chunks
    return if node.id = r then rest else c :: rest

def ChunkStore.getAlternativeTo (r : G.RuleId) : Drawing R Panic (Option (Tree G × ℕ)) := do
  let chunks := (cks.ntsToChunks (G.getRule r).nonterm).getD []
  let relevant ← ofResult (cks.others r chunks)
  match ← draw (chooseFiltered relevant) with
  | none => return none
  | some c => return some (← ofResult (index cks.trees c.1), c.2)

/-! ### What is in the store -/

/-- The chunk is a node of the nonterminal in a valid tree. -/
def IsChunk (trees : List (Tree G)) (nt : NTermId) (c : ℕ × ℕ) : Prop :=
  ∃ tree root x, trees[c.1]? = some tree ∧ tree.Valid root ∧ tree.rules[c.2]? = some x ∧ x.nonterm = nt

/-- All chunks of the store are chunks of the given trees. -/
def ChunkStore.Filled (trees : List (Tree G)) : Prop :=
  ∀ nt chunks, cks.ntsToChunks nt = some chunks → ∀ c ∈ chunks, IsChunk trees nt c

theorem IsChunk.append {trees : List (Tree G)} {nt : NTermId} {c : ℕ × ℕ} (h : IsChunk trees nt c)
    (tree : Tree G) : IsChunk (trees ++ [tree]) nt c := by
  obtain ⟨t, root, x, ht, hvalid, hx, hnt⟩ := h
  refine ⟨t, root, x, ?_, hvalid, hx, hnt⟩
  rw [List.getElem?_append_left (List.getElem?_eq_some_iff.mp ht).1, ht]

variable {unparse : Tree G → ℕ → List UInt8} {tree : Tree G}

/-- While a tree is looked through, the new chunks are those of the tree that is about to be
    added. -/
theorem addChunk_filled {root : NTermId} (hvalid : tree.Valid root)
    {s s' : ChunkStore G × Bool} {i : ℕ} (hfilled : s.1.Filled (s.1.trees ++ [tree]))
    (hold : s.2 = false → s.1.Filled s.1.trees) (h : addChunk unparse tree s i = .ok s') :
    s'.1.trees = s.1.trees ∧ s'.1.Filled (s.1.trees ++ [tree]) ∧ (s'.2 = false → s'.1.Filled s.1.trees) := by
  obtain ⟨size, -, h⟩ := bind_eq_ok.mp h
  split at h
  · cases h
    exact ⟨rfl, hfilled, hold⟩
  simp only at h
  split at h
  · cases h
    exact ⟨rfl, hfilled, hold⟩
  obtain ⟨x, hx, h⟩ := bind_eq_ok.mp h
  cases h
  rw [index_eq_ok] at hx
  refine ⟨rfl, fun nt chunks hchunks c hc => ?_, fun hflag => by cases hflag⟩
  by_cases hnt : nt = x.nonterm
  · subst hnt
    simp only [Function.update_self, Option.some.injEq] at hchunks
    subst hchunks
    rcases mem_append.mp hc with hc | hc
    · cases hentry : s.1.ntsToChunks x.nonterm with
      | none => simp [hentry] at hc
      | some chunks =>
        rw [hentry] at hc
        exact hfilled _ chunks hentry c hc
    · rw [mem_singleton.mp hc]
      exact ⟨tree, root, x, by simp, hvalid, hx, rfl⟩
  · simp only [Function.update_of_ne hnt] at hchunks
    exact hfilled nt chunks hchunks c hc

theorem ChunkStore.addTree_filled {cks cks' : ChunkStore G} {root : NTermId}
    (hvalid : tree.Valid root) (hfilled : cks.Filled cks.trees)
    (h : cks.addTree unparse tree = .ok cks') :
    cks'.Filled cks'.trees := by
  obtain ⟨out, hout, h⟩ := bind_eq_ok.mp h
  have hloop : ∀ (is : List ℕ) (s s' : ChunkStore G × Bool), s.1.Filled (s.1.trees ++ [tree]) →
      (s.2 = false → s.1.Filled s.1.trees) → is.foldlM (addChunk unparse tree) s = .ok s' →
      s'.1.trees = s.1.trees ∧ s'.1.Filled (s'.1.trees ++ [tree]) ∧ (s'.2 = false → s'.1.Filled s'.1.trees) := by
    intro is
    induction is with
    | nil =>
      intro s s' hs hold hrun
      cases hrun
      exact ⟨rfl, hs, hold⟩
    | cons i is ih =>
      intro s s' hs hold hrun
      rw [foldlM_cons] at hrun
      obtain ⟨t, ht, hrun⟩ := bind_eq_ok.mp hrun
      obtain ⟨htrees, hfilled, hold⟩ := addChunk_filled hvalid hs hold ht
      rw [← htrees] at hfilled hold
      obtain ⟨htrees', hrest⟩ := ih t s' hfilled hold hrun
      exact ⟨htrees'.trans htrees, hrest⟩
  obtain ⟨-, hnew, hold⟩ := hloop _ _ _
    (fun nt chunks hchunks c hc => (hfilled nt chunks hchunks c hc).append tree) (fun _ => hfilled) hout
  cases h
  split
  · exact hnew
  · next hflag => exact hold (Bool.eq_false_iff.mpr hflag)

theorem filled_of_addTrees : ∀ {trees : List (Tree G)}
    {cks cks' : ChunkStore G}, (∀ t ∈ trees, ∃ root, t.Valid root) → cks.Filled cks.trees →
      trees.foldlM (ChunkStore.addTree unparse) cks = .ok cks' → cks'.Filled cks'.trees
  | [], cks, cks', _, hfilled, h => by
    cases h
    exact hfilled
  | t :: trees, cks, cks', hvalid, hfilled, h => by
    rw [foldlM_cons] at h
    obtain ⟨mid, hmid, h⟩ := bind_eq_ok.mp h
    obtain ⟨root, ht⟩ := hvalid t mem_cons_self
    exact filled_of_addTrees (fun t ht => hvalid t (mem_cons_of_mem _ ht))
      (ChunkStore.addTree_filled ht hfilled hmid) h

theorem ChunkStore.others_subset (cks : ChunkStore G) {r : G.RuleId} :
    ∀ {chunks out : List (ℕ × ℕ)},
    cks.others r chunks = .ok out → ∀ c ∈ out, c ∈ chunks
  | [], out, h, c, hc => by
    cases h
    cases hc
  | c' :: chunks, out, h, c, hc => by
    obtain ⟨tree, -, h⟩ := bind_eq_ok.mp h
    obtain ⟨node, -, h⟩ := bind_eq_ok.mp h
    obtain ⟨rest, hrest, h⟩ := bind_eq_ok.mp h
    have hsubset := cks.others_subset hrest c
    cases h
    split at hc
    · exact mem_cons_of_mem _ (hsubset hc)
    · rcases mem_cons.mp hc with rfl | hc
      · exact mem_cons_self
      · exact mem_cons_of_mem _ (hsubset hc)

theorem ChunkStore.getAlternativeTo_valid {cks : ChunkStore G} (hfilled : cks.Filled cks.trees)
    {r : G.RuleId} {n : ℕ} {rng rng' : R}
    (h : cks.getAlternativeTo r rng = .ok (some (tree, n), rng')) :
    ∃ root x, tree.Valid root ∧ tree.rules[n]? = some x ∧ x.nonterm = (G.getRule r).nonterm := by
  obtain ⟨relevant, r₁, hrelevant, h⟩ := Drawing.bind_eq_ok.mp h
  obtain ⟨hrelevant, -⟩ := ofResult_eq_ok.mp hrelevant
  obtain ⟨choice, r₂, hchoice, h⟩ := bind_eq_ok.mp h
  rw [draw_eq_ok] at hchoice
  cases choice with
  | none =>
    obtain ⟨hnone, -⟩ := Drawing.pure_eq_ok.mp h
    cases hnone
  | some c =>
    obtain ⟨t, r₃, ht, h⟩ := Drawing.bind_eq_ok.mp h
    obtain ⟨ht, -⟩ := ofResult_eq_ok.mp ht
    obtain ⟨hsome, -⟩ := Drawing.pure_eq_ok.mp h
    cases hsome
    rw [index_eq_ok] at ht
    have hmem : c ∈ relevant := by
      rcases yields_chooseFiltered relevant r₁ with ⟨hnone, -⟩ | ⟨x, hx, hsome⟩
      · rw [hchoice] at hnone
        cases hnone
      · rw [hchoice] at hsome
        cases hsome
        exact hx
    have hc := cks.others_subset hrelevant c hmem
    cases hchunks : cks.ntsToChunks (G.getRule r).nonterm with
    | none =>
      rw [hchunks] at hc
      cases hc
    | some chunks =>
      rw [hchunks] at hc
      obtain ⟨t', root, x, ht', hvalid, hx, hnt⟩ := hfilled _ chunks hchunks c hc
      cases ht'.symm.trans ht
      exact ⟨root, x, hvalid, hx, hnt⟩

end Bofuzz.Nautilus
