import Bofuzz.Libafl.Nautilus.Grammar

/-! Derivation trees (`common/nautilus/grammartec/tree.rs`).

    A tree is the vector of its rules in pre-order, with two parallel vectors for the sizes of the
    subtrees and for the parents. `from_rule_vec` computes the two from the rules with a stack and a
    pass from the end; on the pre-order of a derivation it finds what `Nodes` says. -/

namespace Bofuzz.Nautilus
open Result Preorder List

/-- A rule, with the string that was made for it if it is a regular expression. -/
inductive RuleIdOrCustom (G : Grammar) where
  | rule (id : G.RuleId)
  | custom (id : G.RuleId) (data : List UInt8)

variable {G : Grammar}

def RuleIdOrCustom.id : RuleIdOrCustom G → G.RuleId
  | .rule id => id
  | .custom id _ => id

/-- `get_nt`. -/
def RuleIdOrCustom.nonterm (x : RuleIdOrCustom G) : NTermId := (G.getRule x.id).nonterm

def RuleIdOrCustom.nonterms (x : RuleIdOrCustom G) : List NTermId := (G.getRule x.id).nonterms

/-- The nodes of a tree are rules. -/
def Grammar.nodes (G : Grammar) : Signature NTermId (RuleIdOrCustom G) where
  sort := RuleIdOrCustom.nonterm
  args := RuleIdOrCustom.nonterms

structure Tree (G : Grammar) where
  rules : List (RuleIdOrCustom G)
  sizes : List ℕ
  paren : List ℕ

/-- The loop of `calc_parents`, from node `i` on. The top of the stack is its head. -/
def calcParents : ℕ → List (RuleIdOrCustom G) → List (NTermId × ℕ) → Except Panic (List ℕ)
  | _, [], _ => .ok []
  | _, _ :: _, [] => .error .invalidTree
  | i, x :: rules, top :: stack => do
    if top.1 = x.nonterm then
      return top.2 :: (← calcParents (i + 1) rules (x.nonterms.map (·, i) ++ stack))
    else .error .invalidTree

/-- `self.sizes[self.paren[i]] += self.sizes[i]`. -/
def addSize (paren : List ℕ) (sizes : List ℕ) (i : ℕ) : Except Panic (List ℕ) :=
  match paren[i]?, sizes[i]? with
  | some p, some size => if p < sizes.length then .ok (sizes.modify p (· + size)) else .error .index
  | _, _ => .error .index

/-- `calc_sizes`. -/
def calcSizes (paren : List ℕ) : Except Panic (List ℕ) :=
  (List.range' 1 (paren.length - 1)).reverse.foldlM (addSize paren) (List.replicate paren.length 1)

/-- `Tree::from_rule_vec`. -/
def fromRuleVec (rules : List (RuleIdOrCustom G)) : Except Panic (Tree G) :=
  match rules with
  | [] => .ok ⟨[], [], []⟩
  | x :: _ => do
    let paren ← calcParents 0 rules [(x.nonterm, 0)]
    let sizes ← calcSizes paren
    return ⟨rules, sizes, paren⟩

/-- The tree is a derivation from the nonterminal, and its sizes and parents are those of its
    nodes. -/
def Tree.Valid (t : Tree G) (nt : NTermId) : Prop := Nodes G.nodes 0 0 [nt] t.rules t.sizes t.paren

/-! ### Parents -/

variable {w : List (RuleIdOrCustom G)} {offset parent : ℕ} {nts : List NTermId} {z q : List ℕ}

theorem calcParents_nodes (h : Nodes G.nodes offset parent nts w z q) :
    ∀ (rest : List (RuleIdOrCustom G)) (stack : List (NTermId × ℕ)) (q' : List ℕ),
      calcParents (offset + w.length) rest stack = .ok q' →
      calcParents offset (w ++ rest) (nts.map (·, parent) ++ stack) = .ok (q ++ q') := by
  induction h with
  | nil => exact fun _ _ _ hrest => hrest
  | @cons offset parent a nts u v z z' q q' _ _ ihc ihr =>
    intro rest stack q'' hrest
    have hlen : offset + (a :: (u ++ v)).length = offset + 1 + u.length + v.length := by
      simp only [length_cons, length_append]
      omega
    rw [hlen] at hrest
    -- the children of the node are on top of the stack, and the other terms are below them
    have hchildren := ihc _ _ _ (ihr _ _ _ hrest)
    rw [cons_append, append_assoc, map_cons, cons_append, calcParents]
    have hsort : G.nodes.sort a = a.nonterm := rfl
    have hargs : G.nodes.args a = a.nonterms := rfl
    rw [hargs] at hchildren
    simp only [hsort, if_true, hchildren]
    exact congrArg (fun q => Except.ok (parent :: q)) (append_assoc _ _ _).symm

/-! ### Sizes -/

/-- The size of node `i` is added to that of its parent, which stands before it. -/
theorem addSize_eq_ok {paren before : List ℕ} (between after : List ℕ) {i : ℕ} (x size : ℕ)
    (hparen : paren[i]? = some before.length) (hi : before.length + 1 + between.length = i) :
    addSize paren (before ++ x :: (between ++ size :: after)) i =
      .ok (before ++ (x + size) :: (between ++ size :: after)) := by
  have hsize : (before ++ x :: (between ++ size :: after))[i]? = some size := by
    subst hi
    rw [Nat.add_assoc, getElem?_append_right (Nat.le_add_right _ _), Nat.add_sub_cancel_left,
      Nat.add_comm 1, getElem?_cons_succ, getElem?_append_right (Nat.le_refl _), Nat.sub_self]
    rfl
  have hmodify : ∀ b : List ℕ, (b ++ x :: (between ++ size :: after)).modify b.length (· + size) =
      b ++ (x + size) :: (between ++ size :: after) := by
    intro b
    induction b with
    | nil => rfl
    | cons y b ih => exact congrArg (y :: ·) ih
  rw [addSize, hparen, hsize]
  simp only [hmodify]
  exact if_pos (by simp only [length_append, length_cons]; omega)

/-- The pass over the nodes of some terms finds their sizes, and adds up to their number at the
    parent. -/
theorem foldlM_addSize_nodes {paren : List ℕ} (h : Nodes G.nodes offset parent nts w z q) :
    ∀ (before between after p p' : List ℕ) (x : ℕ), before.length = parent →
      parent + 1 + between.length = offset → paren = p ++ (q ++ p') → p.length = offset →
      (range' offset w.length).reverse.foldlM (addSize paren)
          (before ++ x :: (between ++ (replicate w.length 1 ++ after))) =
        .ok (before ++ (x + w.length) :: (between ++ (z ++ after))) := by
  induction h with
  | nil =>
    intro before between after p p' x _ _ _ _
    rfl
  | @cons offset parent a nts u v z z' q q' hchildren hrest ihc ihr =>
    intro before between after p p' x hbefore hbetween hparen hp
    have hrange : (range' offset (a :: (u ++ v)).length).reverse =
        (range' (offset + 1 + u.length) v.length).reverse ++
          ((range' (offset + 1) u.length).reverse ++ [offset]) := by
      rw [length_cons, range'_succ, length_append, ← range'_append_1,
        reverse_cons, reverse_append, append_assoc]
    have hones : replicate (a :: (u ++ v)).length 1 ++ after =
        (1 :: replicate u.length 1) ++ (replicate v.length 1 ++ after) := by
      rw [length_cons, length_append, replicate_succ, ← replicate_append_replicate,
        cons_append, cons_append, append_assoc]
    have hq : q.length = u.length := hchildren.length_parents
    -- first the terms behind the node, then its children, and the node itself at last
    have hbehind := ihr before (between ++ 1 :: replicate u.length 1) after (p ++ parent :: q) p' x hbefore
      (by simp only [length_append, length_cons, length_replicate]; omega)
      (by rw [hparen]; simp) (by simp only [length_append, length_cons]; omega)
    have hinside := ihc (before ++ (x + v.length) :: between) [] (z' ++ after) (p ++ [parent]) (q' ++ p') 1
      (by simp only [length_append, length_cons]; omega) rfl
      (by rw [hparen]; simp) (by simp only [length_append, length_singleton]; omega)
    have hparent : paren[offset]? = some before.length := by
      rw [hparen, getElem?_append_right (by omega), hp, Nat.sub_self, hbefore]
      rfl
    have hself := addSize_eq_ok between (z ++ (z' ++ after)) (x + v.length) (1 + u.length) hparent (by omega)
    have hsum : x + v.length + (1 + u.length) = x + (a :: (u ++ v)).length := by
      simp only [length_cons, length_append]
      omega
    rw [hsum] at hself
    simp only [append_assoc, cons_append, nil_append] at hbehind hinside hself
    rw [hrange, hones, foldlM_append]
    simp only [append_assoc, cons_append]
    rw [hbehind]
    refine (foldlM_append (m := Except Panic)).trans ?_
    rw [hinside, Nat.add_comm u.length 1]
    exact (bind_pure _).trans hself

variable {nt : NTermId}

/-- `from_rule_vec` finds the sizes and parents of the nodes of a derivation. -/
theorem fromRuleVec_nodes {z q : List ℕ} (h : Nodes G.nodes 0 0 [nt] w z q) :
    fromRuleVec w = .ok ⟨w, z, q⟩ := by
  have hparents := calcParents_nodes h [] [] [] rfl
  cases h with
  | @cons _ _ a _ u v z z' q q' hchildren hrest =>
    cases hrest
    have hlen : (0 :: (q ++ [])).length = u.length + 1 := by
      rw [append_nil, length_cons, hchildren.length_parents]
    have hsizes : calcSizes (0 :: (q ++ [])) = .ok ((u.length + 1) :: (z ++ [])) := by
      have hfold := foldlM_addSize_nodes hchildren [] [] [] [0] [] 1 rfl rfl rfl rfl
      rw [calcSizes, hlen, Nat.add_sub_cancel, replicate_succ]
      simpa [Nat.add_comm] using hfold
    simp only [append_nil, map_cons, map_nil] at hparents hsizes ⊢
    have hsort : G.nodes.sort a = a.nonterm := rfl
    rw [hsort] at hparents
    exact bind_eq_ok.mpr ⟨_, hparents, bind_eq_ok.mpr ⟨_, hsizes, rfl⟩⟩

theorem fromRuleVec_encodes (h : Encodes G.nodes [nt] w) :
    ∃ t, fromRuleVec w = .ok t ∧ t.rules = w ∧ t.Valid nt := by
  obtain ⟨z, q, hnodes⟩ := Nodes.exists_of_encodes w.length 0 0 (Nat.le_refl _) h
  exact ⟨⟨w, z, q⟩, fromRuleVec_nodes hnodes, rfl, hnodes⟩

theorem Tree.Valid.root {t : Tree G} (h : t.Valid nt) :
    ∃ x, t.rules[0]? = some x ∧ x.nonterm = nt := by
  obtain ⟨rules, sizes, paren⟩ := t
  cases h with
  | @cons _ _ a => exact ⟨a, rfl, rfl⟩

theorem Tree.Valid.encodes {t : Tree G} (h : t.Valid nt) : Encodes G.nodes [nt] t.rules :=
  Nodes.encodes h

end Bofuzz.Nautilus
