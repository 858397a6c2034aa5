import Bofuzz.Lib.Effect
import Bofuzz.Libafl.Nautilus.ChunkStore
import Bofuzz.Libafl.Nautilus.Recursion

/-! The mutator (`common/nautilus/grammartec/mutator.rs`).

    The tester is a closure with a state of its own: how it answers may depend on all the mutations
    that it was handed before. They are recorded, so that what is handed over can be spoken about
    however a run ends. -/

namespace Bofuzz.Nautilus
open Bofuzz.Rand Result Preorder Effect List Nat

variable {G : Grammar} {R C F ε α β : Type} [Rand R] [Rand C] [F64 F]

/-- The generator and the mutations that were handed to the tester. -/
structure Testing (R : Type) (G : Grammar) where
  rng : R
  handed : List (TreeMutation G) := []

inductive Halt (ε : Type) where
  | panic (p : Panic)
  /-- `Empty tree in mut_splice`. -/
  | emptyTree
  | tester (e : ε)

/-- The answer of the tester to a mutation, after the given ones. -/
abbrev Tester (G : Grammar) (ε α : Type) := List (TreeMutation G) → TreeMutation G → Except ε α

abbrev Mutating (R : Type) (G : Grammar) (ε : Type) := EStateM (Halt ε) (Testing R G)

def hand (tester : Tester G ε α) (m : TreeMutation G) : Mutating R G ε α := fun s =>
  match tester s.handed m with
  | .ok a => .ok a { s with handed := s.handed ++ [m] }
  | .error e => .error (.tester e) { s with handed := s.handed ++ [m] }

def drawing (m : Drawing R Panic α) : Mutating R G ε α := fun s =>
  match m s.rng with
  | .ok (a, rng) => .ok a { s with rng }
  | .error p => .error (.panic p) s

/-- Code that only may panic. -/
def orPanic (x : Except Panic α) : Mutating R G ε α := ofResult (x.mapError .panic)

/-! ### The code -/

variable (tester : Tester G ε Bool)

def testAndConvert (treeA : Tree G) (nA : ℕ) (treeB : Tree G) (nB : ℕ) :
    Mutating R G ε (Option (Tree G)) := do
  let repl ← orPanic (treeA.mutateReplaceFromTree nA treeB nB)
  if ← hand tester repl then return some (← orPanic repl.toTree) else return none

/-- The body of the loop of `minimize_tree`: the tree that it leaves. -/
def minimizeNode (withSeed : UInt64 → C) (ctx : Context G) (tester : Tester G ε Bool) (rounds : ℕ)
    (tree : Tree G) (i : ℕ) : Mutating R G ε (Tree G) := do
  let nt := (← orPanic (index tree.rules i)).nonterm
  let size ← orPanic (index tree.sizes i)
  let min ← orPanic (entry (ctx.ntsToMinSize nt))
  if min < size then
    let scratchpad ← drawing (generateFromNt withSeed ctx rounds nt min)
    match ← testAndConvert tester tree i scratchpad 0 with
    | some t => return t
    | none => return tree
  else return tree

/-- `minimize_tree`, from node `i` on and with a bound on the rounds. -/
def minimizeTree (withSeed : UInt64 → C) (ctx : Context G) (tester : Tester G ε Bool)
    (rounds endIndex : ℕ) :
    ℕ → Tree G → ℕ → Mutating R G ε (Bool × Tree G)
  | 0, _, _ => throw (.panic .unfinished)
  | k + 1, tree, i => do
    if i < tree.rules.length then
      let tree ← minimizeNode withSeed ctx tester rounds tree i
      if i + 1 = endIndex then return (false, tree)
      else minimizeTree withSeed ctx tester rounds endIndex k tree (i + 1)
    else return (true, tree)

variable (tree : Tree G)

/-- The loop of `find_parent_with_nt`. A tree has more nodes than a node has ancestors. -/
def climb (nt : NTermId) : ℕ → ℕ → Except Panic (Option ℕ)
  | 0, _ => .error .unfinished
  | k + 1, node => do
    if node = 0 then return none
    else
      let parent ← index tree.paren node
      if (← index tree.rules parent).nonterm = nt then return some parent else climb nt k parent

def findParentWithNt (node : ℕ) : Except Panic (Option ℕ) := do
  climb tree (← index tree.rules node).nonterm tree.rules.length node

/-- The body of the loop of `minimize_rec`: the tree that it leaves, and the node it goes on
    from. -/
def minimizeRecNode (i : ℕ) : Mutating R G ε (Tree G × ℕ) := do
  match ← orPanic (findParentWithNt tree i) with
  | none => return (tree, i)
  | some parent =>
    match ← testAndConvert tester tree parent tree i with
    | some t => return (t, parent)
    | none => return (tree, i)

/-- `minimize_rec`, from node `i` on and with a bound on the rounds. -/
def minimizeRec (endIndex : ℕ) : ℕ → Tree G → ℕ → Mutating R G ε (Bool × Tree G)
  | 0, _, _ => throw (.panic .unfinished)
  | k + 1, tree, i => do
    if i < tree.rules.length then
      let next ← minimizeRecNode tester tree i
      if next.2 + 1 = endIndex then return (false, next.1)
      else minimizeRec endIndex k next.1 (next.2 + 1)
    else return (true, tree)

def mutSplice (tester : Tester G ε Unit) (tree : Tree G) (cks : ChunkStore G) :
    Mutating R G ε Unit := do
  if tree.rules.length = 0 then throw .emptyTree
  else
    let n ← drawing (Drawing.draw (below tree.rules.length))
    let oldRuleId := (← orPanic (index tree.rules n)).id
    match ← drawing (cks.getAlternativeTo oldRuleId) with
    | none => pure ()
    | some repl => hand tester (← orPanic (tree.mutateReplaceFromTree n repl.1 repl.2))

/-- The mutation of `mut_random_recursion`: what is around the second node of the pair inside the
    first one is repeated. -/
def recursionMutation (maxLenOfRecursions : ℕ) (recursion : ℕ × ℕ) :
    Except Panic (TreeMutation G) := do
  let lenPre ← Regex.checkedSub recursion.2 recursion.1
  let lenTotal ← Regex.checkedSub (← index tree.sizes recursion.1) (← index tree.sizes recursion.2)
  let lenPost ← Regex.checkedSub lenTotal lenPre
  if lenTotal = 0 then .error .divideByZero
  else
    let num := maxLenOfRecursions / lenTotal
    let len ← index tree.sizes recursion.2
    let rulesPre ← (List.range (num * lenPre)).mapM fun i => index tree.rules (recursion.1 + i % lenPre)
    let sizesPre ← (List.range (num * lenPre)).mapM fun i => index tree.sizes (recursion.1 + i % lenPre)
    let rulesEnd ← (List.range len).mapM fun i => index tree.rules (recursion.2 + i)
    let sizesEnd ← (List.range len).mapM fun i => index tree.sizes (recursion.2 + i)
    -- the sizes are adjusted before the rest is appended
    let sizes := (sizesPre ++ sizesEnd).mapIdx fun i item =>
      if i < num * lenPre ∧ lenPre ≤ item then item + (num - i / lenPre - 1) * lenTotal else item
    let rulesPost ← (List.range (num * lenPost)).mapM fun i =>
      index tree.rules (recursion.2 + len + i % lenPost)
    let sizesPost ← (List.range (num * lenPost)).mapM fun i =>
      index tree.sizes (recursion.2 + len + i % lenPost)
    tree.mutateReplaceFromTree recursion.2 ⟨rulesPre ++ rulesEnd ++ rulesPost, sizes ++ sizesPost, []⟩ 0

def mutRandomRecursion (tester : Tester G ε Unit) (tree : Tree G)
    (recursions : List (RecursionInfo F)) :
    Mutating R G ε Unit := do
  let maxLenOfRecursions := 2 <<< (← drawing (Drawing.draw (between 1 10)))
  match ← drawing (Drawing.draw (chooseExact recursions)) with
  | none => pure ()
  | some info =>
    let recursion ← drawing info.getRandomRecursionPair
    hand tester (← orPanic (recursionMutation tree maxLenOfRecursions recursion))

/-! ### What is handed over -/

/-- If only valid mutations have been handed over before `m`, then after it too, however it ends;
    and what it returns is in `Q`. -/
def Keeps (root : NTermId) (m : Mutating R G ε α) (Q : α → Prop) : Prop :=
  ∀ s : Testing R G, (∀ x ∈ s.handed, x.Valid root) →
    Spec m s (fun a t => (∀ x ∈ t.handed, x.Valid root) ∧ Q a) (fun _ t => ∀ x ∈ t.handed, x.Valid root)

namespace Keeps
variable {root : NTermId} {m : Mutating R G ε α} {Q : α → Prop} {P : β → Prop}

omit [Rand R]

theorem pure {a : α} (h : Q a) : Keeps root (Pure.pure a : Mutating R G ε α) Q :=
  fun _ hs => ⟨hs, h⟩

theorem throw (e : Halt ε) : Keeps root (MonadExcept.throw e : Mutating R G ε α) Q := fun _ hs => hs

variable {f : α → Mutating R G ε β}

theorem bind (h : Keeps root m Q) (hf : ∀ a, Q a → Keeps root (f a) P) :
    Keeps root (m >>= f) P := by
  intro s hs
  rw [spec_bind]
  refine (h s hs).imp ?_
  rintro a t ⟨ht, ha⟩
  exact hf a ha t ht

theorem orPanic {x : Except Panic α} (h : ∀ a, x = .ok a → Keeps root (f a) P) :
    Keeps root (orPanic x >>= f) P := by
  intro s hs
  rw [spec_bind, Nautilus.orPanic, spec_ofResult]
  exact ⟨fun a ha => h a (eq_ok_of_mapError ha) s hs, fun _ _ => hs⟩

theorem drawing {x : Drawing R Panic α} (h : ∀ r a r', x r = .ok (a, r') → Keeps root (f a) P) :
    Keeps root (drawing x >>= f) P := by
  intro s hs
  rw [spec_bind]
  unfold Spec Nautilus.drawing
  cases hx : x s.rng with
  | ok out => exact h _ _ _ hx _ hs
  | error p => exact hs

theorem hand {tester : Tester G ε α} {x : TreeMutation G} (h : x.Valid root) (hQ : ∀ a, Q a) :
    Keeps root (hand tester x : Mutating R G ε α) Q := by
  intro s hs
  have hall : ∀ y ∈ s.handed ++ [x], y.Valid root :=
    forall_mem_append.mpr ⟨hs, forall_mem_singleton.mpr h⟩
  unfold Spec Nautilus.hand
  cases tester s.handed x with
  | ok a => exact ⟨hall, hQ a⟩
  | error e => exact hall

end Keeps

section
variable {root : NTermId} {tree : Tree G} {tester : Tester G ε Bool}

omit [Rand R] in
/-- The tree that `test_and_convert` makes is a derivation from the same nonterminal. -/
theorem keeps_testAndConvert {treeB : Tree G} {rootB : NTermId} {nA nB : ℕ} {a b : RuleIdOrCustom G}
    (hvalid : tree.Valid root) (hvalidB : treeB.Valid rootB) (ha : tree.rules[nA]? = some a)
    (hb : treeB.rules[nB]? = some b) (hab : b.nonterm = a.nonterm) :
    Keeps root (testAndConvert tester tree nA treeB nB : Mutating R G ε _) fun out =>
      ∀ t ∈ out, t.Valid root := by
  refine .orPanic fun m hm => ?_
  have hm := hvalid.mutateReplaceFromTree ha hm hvalidB hb hab
  refine (Keeps.hand hm fun _ => trivial).bind fun answer _ => ?_
  split
  · refine .orPanic fun t ht => .pure ?_
    obtain ⟨t', ht', -, hvalid'⟩ := hm.converts
    cases ht'.symm.trans ht
    rintro _ ⟨⟩
    exact hvalid'
  · exact .pure fun t ht => by cases ht

variable {ctx : Context G} {withSeed : UInt64 → C}

theorem keeps_minimizeNode (hfiled : ctx.Filed) {rounds i : ℕ} (hvalid : tree.Valid root) :
    Keeps root (minimizeNode withSeed ctx tester rounds tree i : Mutating R G ε _) fun t => t.Valid root := by
  refine .orPanic fun a ha => .orPanic fun size _ => .orPanic fun min _ => ?_
  split
  · refine .drawing fun r t r' ht => ?_
    have ht := generateFromNt_valid hfiled ht
    obtain ⟨b, hb, hnt⟩ := ht.root
    refine (keeps_testAndConvert hvalid ht (index_eq_ok.mp ha) hb hnt).bind fun out hout => ?_
    cases out with
    | none => exact .pure hvalid
    | some t => exact .pure (hout t rfl)
  · exact .pure hvalid

theorem keeps_minimizeTree (hfiled : ctx.Filed)
    {rounds endIndex : ℕ} : ∀ (k : ℕ) (tree : Tree G) (i : ℕ), tree.Valid root →
      Keeps root (minimizeTree withSeed ctx tester rounds endIndex k tree i : Mutating R G ε _) fun out =>
        out.2.Valid root
  | 0, _, _, _ => .throw _
  | k + 1, tree, i, hvalid => by
    rw [minimizeTree]
    split
    · refine (keeps_minimizeNode hfiled hvalid).bind fun t ht => ?_
      split
      · exact .pure ht
      · exact keeps_minimizeTree hfiled k t _ ht
    · exact .pure hvalid

theorem climb_nonterm {nt : NTermId} :
    ∀ {k node parent : ℕ}, climb tree nt k node = .ok (some parent) →
    ∃ x, tree.rules[parent]? = some x ∧ x.nonterm = nt
  | 0, _, _, h => by cases h
  | k + 1, node, parent, h => by
    rw [climb] at h
    split at h
    · cases h
    obtain ⟨p, -, h⟩ := bind_eq_ok.mp h
    obtain ⟨x, hx, h⟩ := bind_eq_ok.mp h
    split at h
    · next hnt =>
      cases h
      exact ⟨x, index_eq_ok.mp hx, hnt⟩
    · exact climb_nonterm h

omit [Rand R] in
theorem keeps_minimizeRecNode {i : ℕ} (hvalid : tree.Valid root) :
    Keeps root (minimizeRecNode tester tree i : Mutating R G ε _) fun next => next.1.Valid root := by
  refine .orPanic fun parent hparent => ?_
  cases parent with
  | none => exact .pure hvalid
  | some parent =>
    obtain ⟨a, ha, hclimb⟩ := bind_eq_ok.mp hparent
    obtain ⟨x, hx, hnt⟩ := climb_nonterm hclimb
    refine (keeps_testAndConvert hvalid hvalid hx (index_eq_ok.mp ha) hnt.symm).bind fun out hout => ?_
    cases out with
    | none => exact .pure hvalid
    | some t => exact .pure (hout t rfl)

omit [Rand R] in
theorem keeps_minimizeRec {endIndex : ℕ} : ∀ (k : ℕ) (tree : Tree G) (i : ℕ), tree.Valid root →
      Keeps root (minimizeRec tester endIndex k tree i : Mutating R G ε _) fun out => out.2.Valid root
  | 0, _, _, _ => .throw _
  | k + 1, tree, i, hvalid => by
    rw [minimizeRec]
    split
    · refine (keeps_minimizeRecNode hvalid).bind fun next hnext => ?_
      split
      · exact .pure hnext
      · exact keeps_minimizeRec k _ _ hnext
    · exact .pure hvalid

theorem keeps_mutSplice {tester : Tester G ε Unit} {cks : ChunkStore G} (hvalid : tree.Valid root)
    (hfilled : cks.Filled cks.trees) :
    Keeps root (mutSplice tester tree cks : Mutating R G ε _) fun _ => True := by
  rw [mutSplice]
  split
  · exact .throw _
  refine .drawing fun _ n _ _ => .orPanic fun a ha => .drawing fun r out r' hout => ?_
  cases out with
  | none => exact .pure trivial
  | some repl =>
    obtain ⟨rootB, x, hvalidB, hx, hnt⟩ := cks.getAlternativeTo_valid hfilled hout
    refine .orPanic fun m hm => .hand ?_ fun _ => trivial
    exact hvalid.mutateReplaceFromTree (index_eq_ok.mp ha) hm hvalidB hx hnt

end

/-! ### Repeating a recursion -/

variable {xs before slice behind : List α}

theorem forall₂_index (hxs : xs = before ++ (slice ++ behind)) :
    List.Forall₂ (fun i y => index xs (before.length + i) = .ok y) (range slice.length) slice := by
  rw [forall₂_iff_get]
  refine ⟨length_range, fun i hi hi' => ?_⟩
  rw [get_eq_getElem, getElem_range, index_eq_ok, hxs,
    getElem?_append_right (Nat.le_add_right _ _), Nat.add_sub_cancel_left,
    getElem?_append_left hi', getElem?_eq_getElem hi', get_eq_getElem]

theorem forall₂_index_mod (hxs : xs = before ++ (slice ++ behind)) :
    ∀ num : ℕ, List.Forall₂ (fun i y => index xs (before.length + i % slice.length) = .ok y)
      (range (num * slice.length)) (replicate num slice).flatten
  | 0 => by simp
  | num + 1 => by
    rw [succ_mul, range_add, replicate_succ', flatten_append, flatten_singleton]
    refine rel_append (forall₂_index_mod hxs num) ?_
    rw [forall₂_map_left_iff]
    refine (forall₂_iff_get.mpr ?_)
    obtain ⟨hlen, hget⟩ := forall₂_iff_get.mp (forall₂_index hxs)
    refine ⟨hlen, fun i hi hi' => ?_⟩
    have hmod : (num * slice.length + (range slice.length).get ⟨i, hi⟩) % slice.length =
        (range slice.length).get ⟨i, hi⟩ := by
      rw [mul_add_mod_self_right, mod_eq_of_lt]
      simpa using hi
    rw [hmod]
    exact hget i hi hi'

variable {f : ℕ → Except Panic α}

theorem mapM_unique {is : List ℕ} {xs ys : List α} (hxs : is.mapM f = .ok xs)
    (hys : List.Forall₂ (fun i y => f i = .ok y) is ys) : xs = ys := by
  rw [← mapM_eq_ok] at hys
  exact Except.ok.inj (hxs.symm.trans hys)

theorem mapM_range_zero {n : ℕ} (hn : 0 < n) {xs : List α}
    (hxs : (range n).mapM f = .ok xs) : ∃ x, f 0 = .ok x ∧ xs[0]? = some x := by
  obtain ⟨k, rfl⟩ : ∃ k, n = k + 1 := ⟨n - 1, by omega⟩
  rw [mapM_eq_ok, range_succ_eq_map] at hxs
  obtain ⟨x, rest, hx, -, rfl⟩ := forall₂_cons_left_iff.mp hxs
  exact ⟨x, hx, rfl⟩

theorem checkedSub_eq_ok {a b c : ℕ} (h : Regex.checkedSub a b = .ok c) : b ≤ a ∧ c = a - b := by
  unfold Regex.checkedSub at h
  split at h
  · next hle =>
    cases h
    exact ⟨hle, rfl⟩
  · cases h

theorem getElem?_zero_mapIdx_append {f : ℕ → ℕ → ℕ} {xs : List ℕ} {x : ℕ} (h : xs[0]? = some x)
    (ys : List ℕ) : (xs.mapIdx f ++ ys)[0]? = some (f 0 x) := by
  cases xs with
  | nil => cases h
  | cons y xs =>
    cases h
    simp

variable {root : NTermId}

theorem recursionMutation_valid {tree : Tree G} {nt : NTermId} (hvalid : tree.Valid root)
    {maxLen ancestor node : ℕ} (hrec : tree.Recursive nt ancestor node) {m : TreeMutation G}
    (hm : recursionMutation tree maxLen (ancestor, node) = .ok m) : m.Valid root := by
  obtain ⟨hlt, ⟨size, hsize, hinside⟩, ⟨a, ha, hant⟩, b, hb, hbnt⟩ := hrec
  obtain ⟨pre, left, u, right, post, hrules, hpre, hleft, hlen, hu, hterm, hhole, -⟩ :=
    Nodes.nested hvalid ha hb hsize (le_of_lt hlt) hinside
  have hsort : G.nodes.sort a = nt := hant
  have hsort' : G.nodes.sort b = nt := hbnt
  rw [hsort, hsort'] at hhole
  rw [hsort'] at hterm
  simp only [recursionMutation, bind_eq_ok] at hm
  obtain ⟨lenPre, hlenPre, size', hsize', sizeNode, hsizeNode, lenTotal, hlenTotal, lenPost, hlenPost, hm⟩ := hm
  cases hsize.symm.trans (index_eq_ok.mp hsize')
  cases hu.symm.trans (index_eq_ok.mp hsizeNode)
  -- the lengths are those of what stands to the left and to the right of the node
  obtain rfl : lenPre = left.length := by
    have := (checkedSub_eq_ok hlenPre).2
    omega
  obtain rfl : lenTotal = left.length + right.length := by
    have := (checkedSub_eq_ok hlenTotal).2
    omega
  obtain rfl : lenPost = right.length := by
    have := (checkedSub_eq_ok hlenPost).2
    omega
  split at hm
  · cases hm
  simp only [bind_eq_ok] at hm
  obtain ⟨len, hlen', rulesPre, hrulesPre, sizesPre, hsizesPre, rulesEnd, hrulesEnd, sizesEnd, hsizesEnd,
    rulesPost, hrulesPost, sizesPost, hsizesPost, hm⟩ := hm
  cases hu.symm.trans (index_eq_ok.mp hlen')
  subst hpre
  generalize hnum : maxLen / (left.length + right.length) = num at *
  obtain rfl := mapM_unique hrulesPre (forall₂_index_mod hrules num)
  obtain rfl : rulesEnd = u := by
    refine mapM_unique hrulesEnd ?_
    have hslice := forall₂_index (show tree.rules = (pre ++ left) ++ (u ++ (right ++ post)) by simp [hrules])
    rwa [length_append, hleft] at hslice
  obtain rfl : rulesPost = (replicate num right).flatten := by
    refine mapM_unique hrulesPost ?_
    have hslice := forall₂_index_mod
      (show tree.rules = (pre ++ left ++ rulesEnd) ++ (right ++ post) by simp [hrules]) num
    rwa [length_append, length_append, hleft] at hslice
  refine hvalid.mutateReplace hb hm fun size'' hsize'' => ?_
  have hall : size'' = ((replicate num left).flatten ++ rulesEnd ++
      (replicate num right).flatten).length := by
    have hleftPos : 0 < left.length := by omega
    have hendPos : 0 < rulesEnd.length := hterm.length_le
    have hadjusted := fun first (hfirst : (sizesPre ++ sizesEnd)[0]? = some first) =>
      (getElem?_zero_mapIdx_append hfirst sizesPost).symm.trans hsize''
    simp only [length_append, length_flatten, map_replicate, sum_replicate_nat]
    cases num with
    | zero =>
      rw [zero_mul, range_zero, mapM_nil, pure_eq_ok] at hsizesPre
      obtain ⟨first, hfirst, hzero⟩ := mapM_range_zero hendPos hsizesEnd
      cases hu.symm.trans (index_eq_ok.mp hfirst)
      have hsame := hadjusted _ (by rwa [← hsizesPre])
      simpa using hsame.symm
    | succ k =>
      obtain ⟨first, hfirst, hzero⟩ := mapM_range_zero (mul_pos (succ_pos k) hleftPos) hsizesPre
      rw [zero_mod, add_zero] at hfirst
      cases hsize.symm.trans (index_eq_ok.mp hfirst)
      have hsame := hadjusted _ (by
        rw [getElem?_append_left (List.getElem?_eq_some_iff.mp hzero).1]
        exact hzero)
      rw [if_pos ⟨mul_pos (succ_pos k) hleftPos, by omega⟩, Option.some.injEq] at hsame
      rw [← hsame, hlen, Nat.zero_div, Nat.sub_zero, Nat.add_sub_cancel, Nat.add_mul, Nat.add_mul,
        Nat.mul_add]
      omega
  rw [zero_add, drop_zero, hall, take_length, hbnt, append_assoc]
  exact hhole.iterate num rulesEnd hterm

/-- A node alone has nothing around it to repeat. -/
theorem recursionMutation_self (maxLen node : ℕ) (m : TreeMutation G) :
    recursionMutation tree maxLen (node, node) ≠ .ok m := by
  intro hm
  simp only [recursionMutation, bind_eq_ok] at hm
  obtain ⟨lenPre, -, size, hsize, size', hsize', lenTotal, hlenTotal, lenPost, -, hm⟩ := hm
  cases hsize.symm.trans hsize'
  obtain ⟨-, rfl⟩ := checkedSub_eq_ok hlenTotal
  rw [if_pos (Nat.sub_self size)] at hm
  cases hm

theorem keeps_mutRandomRecursion {tree : Tree G} {tester : Tester G ε Unit}
    {recursions : List (RecursionInfo F)} (hvalid : tree.Valid root)
    (hrec : tree.calcRecursions = .ok (some recursions)) :
    Keeps root (mutRandomRecursion tester tree recursions : Mutating R G ε _) fun _ => True := by
  refine .drawing fun _ bits _ _ => .drawing fun r out r' hdraw => ?_
  rw [Drawing.draw_eq_ok] at hdraw
  have hchosen := yields_chooseExact recursions r
  rw [hdraw] at hchosen
  cases out with
  | none => exact .pure trivial
  | some info =>
    refine .drawing fun r pair r' hpair => .orPanic fun m hm => .hand ?_ fun _ => trivial
    obtain ⟨offset, r₁, -, hpair⟩ := Drawing.bind_eq_ok.mp hpair
    obtain ⟨ancestor, node⟩ := pair
    rcases getRecursionPairByOffset_cases (Drawing.ofResult_eq_ok.mp hpair).1 with heq | hparent
    · obtain rfl : ancestor = node := heq
      exact absurd hm (recursionMutation_self tree _ ancestor m)
    · obtain ⟨nt, hnested⟩ := calcRecursions_recursive hvalid hrec info (hchosen info rfl)
      exact recursionMutation_valid hvalid (hnested node ancestor hparent) hm

/-! ### All mutators -/

/-- Whatever the generator and the tester do, only valid mutations are handed over. -/
def HandsOnlyValid (root : NTermId) (m : Mutating R G ε α) : Prop :=
  ∀ rng : R, ∀ x ∈ (finalState m ⟨rng, []⟩).handed, x.Valid root

omit [Rand R] in
theorem Keeps.handsOnlyValid {m : Mutating R G ε α} {Q : α → Prop} (h : Keeps root m Q) :
    HandsOnlyValid root m := by
  intro rng
  have hspec := h ⟨rng, []⟩ fun x hx => absurd hx not_mem_nil
  exact finalState_of_spec (hspec.imp fun _ _ ha => ha.1)

/-- Every mutation that is handed to the tester is a derivation from the nonterminal of the tree,
    and makes a tree with the sizes and parents of its nodes. -/
theorem nautilus_mutations_valid {ctx : Context G} {ctxRounds : ℕ}
    (hctx : G.context.initializeTables ctxRounds = .ok ctx) {tree : Tree G} {root : NTermId}
    (hvalid : tree.Valid root) (withSeed : UInt64 → C) :
    (∀ (tester : Tester G ε Bool) (rounds k start stop : ℕ),
      HandsOnlyValid root (minimizeTree withSeed ctx tester rounds stop k tree start : Mutating R G ε _) ∧
      HandsOnlyValid root (minimizeRec tester stop k tree start : Mutating R G ε _)) ∧
    (∀ (tester : Tester G ε Unit) (unparse : Tree G → ℕ → List UInt8) (trees : List (Tree G))
      (cks : ChunkStore G), (∀ t ∈ trees, ∃ nt, t.Valid nt) →
      trees.foldlM (ChunkStore.addTree unparse) {} = .ok cks →
      HandsOnlyValid root (mutSplice tester tree cks : Mutating R G ε _)) ∧
    (∀ (tester : Tester G ε Unit) (recursions : List (RecursionInfo F)),
      tree.calcRecursions = .ok (some recursions) →
      HandsOnlyValid root (mutRandomRecursion tester tree recursions : Mutating R G ε _)) := by
  refine ⟨fun tester rounds k start stop => ⟨?_, ?_⟩, ?_, fun tester recursions hrec => ?_⟩
  · exact (keeps_minimizeTree (initialize_filed hctx) k tree start hvalid).handsOnlyValid
  · exact (keeps_minimizeRec k tree start hvalid).handsOnlyValid
  · intro tester unparse trees cks htrees hcks
    have hempty : ({} : ChunkStore G).Filled [] := fun _ _ h => by cases h
    exact (keeps_mutSplice hvalid (filled_of_addTrees htrees hempty hcks)).handsOnlyValid
  · exact (keeps_mutRandomRecursion hvalid hrec).handsOnlyValid

/-- `S → a S | b`. -/
def nestingGrammar : Grammar := ⟨[.plain 0 [0], .plain 0 []]⟩

/-- The derivation of `a b`. -/
def twoNodes : Tree nestingGrammar := ⟨[.rule ⟨0, by decide⟩, .rule ⟨1, by decide⟩], [2, 1], [0, 0]⟩

theorem twoNodes_valid : twoNodes.Valid 0 := by
  have hencodes : Encodes nestingGrammar.nodes [0] twoNodes.rules := by decide
  obtain ⟨t, ht, -, hvalid⟩ := fromRuleVec_encodes hencodes
  have hsame : fromRuleVec twoNodes.rules = .ok twoNodes := rfl
  cases hsame.symm.trans ht
  exact hvalid

theorem nautilus_mutations_two_nodes : ∃ ctx cks recursions,
    nestingGrammar.context.initializeTables 3 = .ok ctx ∧
    [twoNodes].foldlM (ChunkStore.addTree fun _ i => [UInt8.ofNat i]) {} = .ok cks ∧
    twoNodes.calcRecursions (F := Exact) = .ok (some recursions) ∧
    (∀ tester : Tester nestingGrammar Unit Unit,
      HandsOnlyValid 0 (mutSplice tester twoNodes cks : Mutating (List UInt64) nestingGrammar Unit _) ∧
      HandsOnlyValid 0
        (mutRandomRecursion tester twoNodes recursions : Mutating (List UInt64) nestingGrammar Unit _)) := by
  have hsome : ((twoNodes.calcRecursions (F := Exact)).toOption.join).isSome := by decide +kernel
  obtain ⟨recursions, hrecursions⟩ : ∃ recursions : List (RecursionInfo Exact),
      twoNodes.calcRecursions = .ok (some recursions) := by
    cases hcalc : twoNodes.calcRecursions (F := Exact) with
    | error p =>
      rw [hcalc] at hsome
      cases hsome
    | ok out =>
      cases out with
      | none =>
        rw [hcalc] at hsome
        cases hsome
      | some recursions => exact ⟨recursions, rfl⟩
  have hctx : ∃ ctx, nestingGrammar.context.initializeTables 3 = .ok ctx := ⟨_, rfl⟩
  obtain ⟨ctx, hctx⟩ := hctx
  have hcks : ∃ cks, [twoNodes].foldlM (ChunkStore.addTree fun _ i => [UInt8.ofNat i]) {} = .ok cks := ⟨_, rfl⟩
  obtain ⟨cks, hcks⟩ := hcks
  refine ⟨ctx, cks, recursions, hctx, hcks, hrecursions, fun tester => ?_⟩
  obtain ⟨-, hsplice, hrecursion⟩ := nautilus_mutations_valid (R := List UInt64) (F := Exact) (ε := Unit)
    hctx twoNodes_valid fun seed => [seed]
  have htrees : ∀ t ∈ [twoNodes], ∃ nt, t.Valid nt := by
    intro t ht
    rw [mem_singleton.mp ht]
    exact ⟨0, twoNodes_valid⟩
  exact ⟨hsplice tester _ _ _ htrees hcks, hrecursion tester _ hrecursions⟩

end Bofuzz.Nautilus
