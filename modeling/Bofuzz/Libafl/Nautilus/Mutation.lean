import Bofuzz.Libafl.Nautilus.Tree

/-! Replacing a subtree (`common/nautilus/grammartec/tree.rs`).

    A `TreeMutation` is three slices of rule vectors: what stands before a node of one tree, a
    subtree of another tree, and what stands behind the subtree of the node. The stored sizes decide
    where the slices end. -/

namespace Bofuzz.Nautilus
open Result Preorder List

variable {G : Grammar}

/-- `xs[i]`. -/
def index {α : Type} (xs : List α) (i : ℕ) : Except Panic α :=
  match xs[i]? with
  | some x => .ok x
  | none => .error .index

/-- The fields `prefix`, `repl` and `postfix`. -/
structure TreeMutation (G : Grammar) where
  pre : List (RuleIdOrCustom G)
  repl : List (RuleIdOrCustom G)
  post : List (RuleIdOrCustom G)

variable (m : TreeMutation G)

def TreeMutation.rules : List (RuleIdOrCustom G) := m.pre ++ m.repl ++ m.post

def TreeMutation.toTree : Except Panic (Tree G) := fromRuleVec m.rules

/-- `&self.rules[start..stop]`. -/
def Tree.slice (t : Tree G) (start stop : ℕ) : Except Panic (List (RuleIdOrCustom G)) :=
  if start ≤ stop ∧ stop ≤ t.rules.length then .ok ((t.rules.take stop).drop start) else .error .index

def Tree.mutateReplaceFromTree (t : Tree G) (n : ℕ) (other : Tree G) (otherNode : ℕ) :
    Except Panic (TreeMutation G) := do
  let oldSize ← index t.sizes n
  let newSize ← index other.sizes otherNode
  let pre ← t.slice 0 n
  let repl ← other.slice otherNode (otherNode + newSize)
  let post ← t.slice (n + oldSize) t.rules.length
  return ⟨pre, repl, post⟩

/-- The mutation is a derivation from the nonterminal, and makes a tree with the sizes and parents
    of its nodes. -/
structure TreeMutation.Valid (root : NTermId) : Prop where
  derives : Encodes G.nodes [root] m.rules
  converts : ∃ t, m.toTree = .ok t ∧ t.rules = m.rules ∧ t.Valid root

variable {m : TreeMutation G} {root : NTermId}

theorem TreeMutation.valid_of_encodes (h : Encodes G.nodes [root] m.rules) :
    m.Valid root := ⟨h, fromRuleVec_encodes h⟩

theorem index_eq_ok {α : Type} {xs : List α} {i : ℕ} {x : α} :
    index xs i = .ok x ↔ xs[i]? = some x := by
  unfold index
  cases xs[i]? <;> simp

theorem slice_eq_ok {t : Tree G} {start stop : ℕ} {w : List (RuleIdOrCustom G)}
    (h : t.slice start stop = .ok w) : w = (t.rules.take stop).drop start := by
  unfold Tree.slice at h
  split at h
  · cases h
    rfl
  · cases h

/-- A subtree of a tree is cut out by its stored size. -/
theorem Tree.Valid.encodes_slice {t : Tree G} (h : t.Valid root) {n size : ℕ}
    {a : RuleIdOrCustom G} (ha : t.rules[n]? = some a) (hsize : t.sizes[n]? = some size) :
    Encodes G.nodes [a.nonterm] ((t.rules.take (n + size)).drop n) := by
  obtain ⟨pre, u, post, hw, hlen, hu, hterm, -⟩ := Nodes.subterm h ha
  cases hu.symm.trans hsize
  subst hlen
  have hslice : (t.rules.take (pre.length + u.length)).drop pre.length = u := by
    rw [hw, ← append_assoc, ← length_append, take_left, drop_left]
  rw [hslice]
  exact hterm

variable {t other : Tree G} {n otherNode : ℕ} {a : RuleIdOrCustom G} (h : t.Valid root)
  (ha : t.rules[n]? = some a) (hm : t.mutateReplaceFromTree n other otherNode = .ok m)
include h ha hm

/-- A subtree may be replaced by any term of its nonterminal. -/
theorem Tree.Valid.mutateReplace (hother : ∀ size, other.sizes[otherNode]? = some size →
      Encodes G.nodes [a.nonterm] ((other.rules.take (otherNode + size)).drop otherNode)) :
    m.Valid root := by
  obtain ⟨oldSize, hold, hm⟩ := bind_eq_ok.mp hm
  obtain ⟨newSize, hnew, hm⟩ := bind_eq_ok.mp hm
  obtain ⟨pre, hpre, hm⟩ := bind_eq_ok.mp hm
  obtain ⟨repl, hrepl, hm⟩ := bind_eq_ok.mp hm
  obtain ⟨post, hpost, hm⟩ := bind_eq_ok.mp hm
  cases hm
  rw [index_eq_ok] at hold hnew
  obtain ⟨left, u, right, hw, hlen, hu, -, hhole⟩ := Nodes.subterm h ha
  cases hu.symm.trans hold
  subst hlen
  obtain rfl : pre = left := by
    rw [slice_eq_ok hpre, hw, take_left]
    rfl
  obtain rfl : post = right := by
    rw [slice_eq_ok hpost, take_length, hw, ← append_assoc, ← length_append, drop_left]
  have hterm : Encodes G.nodes [a.nonterm] repl := slice_eq_ok hrepl ▸ hother newSize hnew
  refine TreeMutation.valid_of_encodes ?_
  have hrules := hhole repl hterm
  rwa [← append_assoc] at hrules

/-- In particular by a subtree of another tree with the same nonterminal. -/
theorem Tree.Valid.mutateReplaceFromTree {otherRoot : NTermId} (hother : other.Valid otherRoot)
    {b : RuleIdOrCustom G} (hb : other.rules[otherNode]? = some b) (hab : b.nonterm = a.nonterm) :
    m.Valid root :=
  h.mutateReplace ha hm fun _ hsize => hab ▸ hother.encodes_slice hb hsize

end Bofuzz.Nautilus
