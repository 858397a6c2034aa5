import Bofuzz.Lib.Num
import Bofuzz.Libafl.Nautilus.Generate
import Bofuzz.Libafl.Nautilus.Mutation

/-! Recursions in a tree (`common/nautilus/grammartec/recursion_info.rs`, `rands/loaded_dice.rs`).

    `find_parents` walks over a tree in pre-order with a stack that has an entry for every term that
    is still to come: the last node of a nonterminal above it. So each node of the nonterminal is
    entered with one that it is nested in. -/

namespace Bofuzz.Nautilus
open Bofuzz.Rand Result Preorder F64 List

variable {G : Grammar} {R F : Type} [Rand R] [F64 F]

/-! ### The sampler -/

/-- The field `other` is `alias`. -/
structure AliasEntry (F : Type) where
  val : ℕ
  other : ℕ
  probOfVal : F

/-- `tmp.sort_by(..)`, from the largest to the smallest. Comparing with a NaN panics. -/
def sortByProb (tmp : List (ℕ × F)) : Except Panic (List (ℕ × F)) :=
  if tmp.all fun x => isNum x.2 then .ok (tmp.insertionSort fun x y => F64.le y.2 x.2)
  else .error .noOrder

/-- `construct_table`, where `k` bounds the rounds of the loop. -/
def constructTable (n invN : F) : ℕ → List (ℕ × F) → Except Panic (List (AliasEntry F))
  | _, [] => .error .noEntry
  | _, [last] => do
    check (F64.lt (F64.lit (999 / 1000)) (last.2 * n) ∧ F64.lt (last.2 * n) (F64.lit (1001 / 1000)))
    return [⟨last.1, 2 ^ 64 - 1, F64.lit 1⟩]
  | 0, _ => .error .unfinished
  | k + 1, tmp => do
    let sorted ← sortByProb tmp
    match sorted.dropLast, sorted.getLast? with
    | largest :: rest, some smallest =>
      let usedProb := invN - smallest.2
      let table ← constructTable n invN k ((largest.1, largest.2 - usedProb) :: rest)
      return ⟨smallest.1, largest.1, smallest.2 * n⟩ :: table
    | _, _ => .error .noEntry

/-- `LoadedDiceSampler::new`. -/
def loadedDice (probs : List F) : Except Panic (List (AliasEntry F)) :=
  let n := F64.ofNat probs.length
  constructTable n (F64.lit 1 / n) probs.length (probs.zipIdx.map Prod.swap)

/-- `next_float`. -/
def nextFloat : StateM R F := do
  return F64.ofNat ((← draw).toNat % 2 ^ 53) * F64.lit (1 / 2 ^ 53)

/-- `LoadedDiceSampler::sample`. -/
def sample (entries : List (AliasEntry F)) : Drawing R Panic ℕ := do
  let i ← Drawing.draw (below entries.length)
  let coin : F ← Drawing.draw nextFloat
  let entry ← Drawing.ofResult (index entries i)
  return if F64.lt entry.probOfVal coin then entry.other else entry.val

/-! ### The table of recursions -/

/-- The result of `find_parents`. -/
structure Found where
  parents : HashMap ℕ ℕ := fun _ => none
  ids : List ℕ := []
  weights : List ℕ := []

def Found.record (found : Found) (node parent depth : ℕ) : Found where
  parents := Function.update found.parents node (some parent)
  ids := found.ids ++ [node]
  weights := found.weights ++ [depth]

/-- The loop of `find_parents`, from node `i` on. The top of the stack is its head. -/
def findParents (nt : NTermId) :
    ℕ → List (RuleIdOrCustom G) → List (Option ℕ × ℕ) → Option Found → Except Panic (Option Found)
  | _, [], _, res => .ok res
  | _, _ :: _, [], _ => .error .invalidTree
  | i, rule :: rules, (maybeParent, depth) :: stack, res =>
    if rule.nonterm = nt then
      let res := match maybeParent with
        | some parent => some ((res.getD {}).record i parent depth)
        | none => res
      findParents nt (i + 1) rules (List.replicate rule.nonterms.length (some i, depth + 1) ++ stack) res
    else
      findParents nt (i + 1) rules
        (List.replicate rule.nonterms.length (maybeParent, depth + 1) ++ stack) res

/-- The sampler is the one of `depth_by_offset`. -/
structure RecursionInfo (F : Type) where
  recursiveParents : HashMap ℕ ℕ
  sampler : List (AliasEntry F)
  depthByOffset : List ℕ
  nodeByOffset : List ℕ

def buildSampler (depths : List ℕ) : Except Panic (List (AliasEntry F)) := do
  let weights : List F := depths.map F64.ofNat
  let norm := F64.sum weights
  check (F64.lt (F64.lit 0) norm)
  loadedDice (weights.map (· / norm))

variable (t : Tree G)

/-- `RecursionInfo::new`. -/
def newRecursionInfo (nt : NTermId) : Except Panic (Option (RecursionInfo F)) := do
  match ← findParents nt 0 t.rules [(none, 0)] none with
  | none => return none
  | some found => return some ⟨found.parents, ← buildSampler found.weights, found.weights, found.ids⟩

/-- `get_recursion_pair_by_offset`. The loop looks up the same node in every round. -/
def RecursionInfo.getRecursionPairByOffset (info : RecursionInfo F) (offset : ℕ) :
    Except Panic (ℕ × ℕ) := do
  let node1 ← index info.nodeByOffset offset
  let depth ← index info.depthByOffset offset
  let node2 ← (List.range depth).foldlM (fun _ _ => entry (info.recursiveParents node1)) node1
  return (node2, node1)

def RecursionInfo.getRandomRecursionPair (info : RecursionInfo F) : Drawing R Panic (ℕ × ℕ) := do
  let offset ← sample info.sampler
  Drawing.ofResult (info.getRecursionPairByOffset offset)

/-- The loop of `calc_recursions`. -/
def recursionsOf :
    List (RuleIdOrCustom G) → (doneNterms : List NTermId) → Except Panic (List (RecursionInfo F))
  | [], _ => .ok []
  | rule :: rules, doneNterms => do
    if rule.nonterm ∈ doneNterms then recursionsOf rules doneNterms
    else
      let info ← newRecursionInfo t rule.nonterm
      let rest ← recursionsOf rules (rule.nonterm :: doneNterms)
      return info.toList ++ rest

/-- `calc_recursions`. -/
def Tree.calcRecursions : Except Panic (Option (List (RecursionInfo F))) := do
  let ret ← recursionsOf t t.rules []
  return if ret.isEmpty then none else some ret

/-! ### Recursions are nested -/

/-- The node and an ancestor of it have the nonterminal. -/
structure Tree.Recursive (nt : NTermId) (ancestor node : ℕ) : Prop where
  lt : ancestor < node
  inside : ∃ size, t.sizes[ancestor]? = some size ∧ node < ancestor + size
  ancestor : ∃ x, t.rules[ancestor]? = some x ∧ x.nonterm = nt
  node : ∃ x, t.rules[node]? = some x ∧ x.nonterm = nt

def Found.Recursive (found : Found) (t : Tree G) (nt : NTermId) : Prop :=
  ∀ node parent, found.parents node = some parent → t.Recursive nt parent node

variable {nt : NTermId}

theorem Found.Recursive.record {found : Found} {t : Tree G} (h : found.Recursive t nt)
    {node parent depth : ℕ} (hnode : t.Recursive nt parent node) :
    (found.record node parent depth).Recursive t nt := by
  intro node' parent' hparent
  by_cases heq : node' = node
  · subst heq
    simp only [Found.record, Function.update_self, Option.some.injEq] at hparent
    exact hparent ▸ hnode
  · simp only [Found.record, Function.update_of_ne heq] at hparent
    exact h node' parent' hparent

/-- The parent on the stack is above all the nodes from `offset` on, `count` of them. -/
def Above (nt : NTermId) (maybeParent : Option ℕ) (offset count : ℕ) : Prop :=
  ∀ p, maybeParent = some p → p < offset ∧ (∃ x, t.rules[p]? = some x ∧ x.nonterm = nt) ∧
    ∃ size, t.sizes[p]? = some size ∧ offset + count ≤ p + size

variable {t : Tree G}

theorem Above.sub {maybeParent : Option ℕ} {offset count offset' count' : ℕ}
    (h : Above t nt maybeParent offset count) (hle : offset ≤ offset')
    (hend : offset' + count' ≤ offset + count) : Above t nt maybeParent offset' count' := by
  intro p hp
  obtain ⟨hlt, hx, size, hsize, hin⟩ := h p hp
  exact ⟨by omega, hx, size, hsize, by omega⟩

/-- A node, what is below it and what is behind it, in a vector over the tree. -/
theorem prefix_drop_cons {α : Type} {l u v : List α} {a : α} {offset : ℕ}
    (h : a :: (u ++ v) <+: l.drop offset) :
    l[offset]? = some a ∧ u <+: l.drop (offset + 1) ∧ v <+: l.drop (offset + 1 + u.length) := by
  obtain ⟨rest, h⟩ := h
  have hbelow : l.drop (offset + 1) = u ++ (v ++ rest) := by
    rw [← drop_drop, ← h, cons_append, append_assoc]
    rfl
  refine ⟨?_, ⟨v ++ rest, hbelow.symm⟩, rest, ?_⟩
  · rw [← head?_drop, ← h]
    rfl
  · rw [← drop_drop, hbelow, drop_left]

theorem findParents_nodes {offset parent : ℕ} {nts : List NTermId}
    {w : List (RuleIdOrCustom G)} {z q : List ℕ} (h : Nodes G.nodes offset parent nts w z q) :
    w <+: t.rules.drop offset → z <+: t.sizes.drop offset → ∀ (maybeParent : Option ℕ) (depth : ℕ)
      (rest : List (RuleIdOrCustom G)) (stack : List (Option ℕ × ℕ))
      (res : Option Found), Above t nt maybeParent offset w.length → (∀ f ∈ res, f.Recursive t nt) →
      ∃ res' : Option Found, (∀ f ∈ res', f.Recursive t nt) ∧
        findParents nt offset (w ++ rest) (replicate nts.length (maybeParent, depth) ++ stack) res =
          findParents nt (offset + w.length) rest stack res' := by
  induction h with
  | nil =>
    intro _ _ maybeParent depth rest stack res _ hres
    exact ⟨res, hres, rfl⟩
  | @cons offset parent a nts u v z z' q q' hchildren hrest ihc ihr =>
    intro hrules hsizes maybeParent depth rest stack res habove hres
    have hlen : (a :: (u ++ v)).length = 1 + u.length + v.length := by
      simp only [length_cons, length_append]
      omega
    rw [hlen] at habove ⊢
    obtain ⟨ha, hrulesChildren, hrulesRest⟩ := prefix_drop_cons hrules
    obtain ⟨hsize, hsizesChildren, hsizesRest⟩ := prefix_drop_cons hsizes
    rw [hchildren.length_sizes] at hsizesRest
    have haboveRest : Above t nt maybeParent (offset + 1 + u.length) v.length :=
      habove.sub (by omega) (by omega)
    -- the children are walked over below `parent'`, and then the other terms
    have hwalk : ∀ (parent' : Option ℕ) (res₁ : Option Found),
        Above t nt parent' (offset + 1) u.length → (∀ f ∈ res₁, f.Recursive t nt) →
        ∃ res' : Option Found, (∀ f ∈ res', f.Recursive t nt) ∧
          findParents nt (offset + 1) (u ++ (v ++ rest)) (replicate a.nonterms.length (parent', depth + 1) ++
            (replicate nts.length (maybeParent, depth) ++ stack)) res₁ =
              findParents nt (offset + (1 + u.length + v.length)) rest stack res' := by
      intro parent' res₁ habove' hres₁
      obtain ⟨res₂, hres₂, hwalk₁⟩ := ihc hrulesChildren hsizesChildren parent' (depth + 1) (v ++ rest)
        (replicate nts.length (maybeParent, depth) ++ stack) res₁ habove' hres₁
      obtain ⟨res₃, hres₃, hwalk₂⟩ := ihr hrulesRest hsizesRest maybeParent depth rest stack res₂
        haboveRest hres₂
      refine ⟨res₃, hres₃, hwalk₁.trans (hwalk₂.trans ?_)⟩
      rw [show offset + 1 + u.length + v.length = offset + (1 + u.length + v.length) by omega]
    rw [cons_append, append_assoc, length_cons, replicate_succ, cons_append]
    simp only [findParents]
    split
    · next hnt =>
      refine hwalk (some offset) _ ?_ ?_
      · intro p hp
        cases hp
        exact ⟨Nat.lt_succ_self _, ⟨a, ha, hnt⟩, u.length + 1, hsize, by omega⟩
      · cases maybeParent with
        | none => exact hres
        | some p =>
          obtain ⟨hlt, hx, size, hsize', hin⟩ := habove p rfl
          intro f hf
          cases hf
          have hold : (res.getD {}).Recursive t nt := by
            cases res with
            | none => exact fun _ _ h => by cases h
            | some f => exact hres f rfl
          exact hold.record ⟨hlt, ⟨size, hsize', by omega⟩, hx, a, ha, hnt⟩
    · exact hwalk maybeParent res (habove.sub (by omega) (by omega)) hres

theorem newRecursionInfo_recursive {root nt : NTermId} (hvalid : t.Valid root)
    {info : RecursionInfo F} (h : newRecursionInfo t nt = .ok (some info)) :
    ∀ node parent, info.recursiveParents node = some parent → t.Recursive nt parent node := by
  obtain ⟨res, hfound, h⟩ := bind_eq_ok.mp h
  cases res with
  | none => cases h
  | some found =>
    obtain ⟨sampler, -, h⟩ := bind_eq_ok.mp h
    cases h
    have hnone : Above t nt none 0 t.rules.length := fun p hp => by cases hp
    obtain ⟨res', hres', hwalk⟩ := findParents_nodes hvalid (by simp) (by simp) none 0 [] [] none hnone
      (by simp)
    rw [append_nil] at hwalk
    cases hfound.symm.trans hwalk
    exact hres' found rfl

theorem recursionsOf_recursive {root : NTermId} (hvalid : t.Valid root) :
    ∀ {rules : List (RuleIdOrCustom G)} {done : List NTermId} {infos : List (RecursionInfo F)},
      recursionsOf t rules done = .ok infos → ∀ info ∈ infos, ∃ nt, ∀ node parent,
        info.recursiveParents node = some parent → t.Recursive nt parent node
  | [], done, infos, h, info, hinfo => by
    cases h
    cases hinfo
  | rule :: rules, done, infos, h, info, hinfo => by
    rw [recursionsOf] at h
    split at h
    · exact recursionsOf_recursive hvalid h info hinfo
    obtain ⟨first, hfirst, h⟩ := bind_eq_ok.mp h
    obtain ⟨rest, hrest, h⟩ := bind_eq_ok.mp h
    cases h
    rcases mem_append.mp hinfo with hinfo | hinfo
    · rw [Option.mem_toList] at hinfo
      cases hinfo
      exact ⟨rule.nonterm, newRecursionInfo_recursive hvalid hfirst⟩
    · exact recursionsOf_recursive hvalid hrest info hinfo

theorem calcRecursions_recursive {root : NTermId} (hvalid : t.Valid root)
    {infos : List (RecursionInfo F)} (h : t.calcRecursions = .ok (some infos)) :
    ∀ info ∈ infos, ∃ nt, ∀ node parent, info.recursiveParents node = some parent →
      t.Recursive nt parent node := by
  obtain ⟨ret, hret, h⟩ := bind_eq_ok.mp h
  rw [pure_eq_ok] at h
  split at h
  · cases h
  · cases h
    exact recursionsOf_recursive hvalid hret

omit [F64 F] in
/-- A pair of the table is a recursion, or a node with itself. -/
theorem getRecursionPairByOffset_cases {info : RecursionInfo F} {offset : ℕ} {pair : ℕ × ℕ}
    (h : info.getRecursionPairByOffset offset = .ok pair) :
    pair.1 = pair.2 ∨ info.recursiveParents pair.2 = some pair.1 := by
  obtain ⟨node, -, h⟩ := bind_eq_ok.mp h
  obtain ⟨depth, -, h⟩ := bind_eq_ok.mp h
  obtain ⟨node', hnode', h⟩ := bind_eq_ok.mp h
  cases h
  have hloop : ∀ (is : List ℕ) (start : ℕ),
      (start = node ∨ info.recursiveParents node = some start) →
      is.foldlM (fun _ _ => entry (info.recursiveParents node)) start = .ok node' →
      node' = node ∨ info.recursiveParents node = some node' := by
    intro is
    induction is with
    | nil =>
      intro start hstart hrun
      cases hrun
      exact hstart
    | cons i is ih =>
      intro start _ hrun
      rw [foldlM_cons] at hrun
      obtain ⟨next, hnext, hrun⟩ := bind_eq_ok.mp hrun
      exact ih next (.inr (entry_eq_ok.mp hnext)) hrun
  exact hloop _ node (.inl rfl) hnode'

end Bofuzz.Nautilus
