import Bofuzz.Extractor.Acfg
import Bofuzz.Lib.FinishOrder
import Bofuzz.Lib.Worklist
import Mathlib.Data.Prod.Lex

/-! Strongly connected components (`static_analysis/features_extractor.py`).

    Two searches with explicit stacks. The first one notes the nodes in the order in which they are
    finished; a node lies on the stack twice, to be visited and, above all that it leads to, to be
    finished. The second one goes backwards from the nodes, the one finished last first, and what it
    finds from a node that has not been found is a component. -/

namespace Bofuzz.Extractor
open Loop Relation FinishOrder Worklist
open List hiding Disjoint

variable {κ : Type} [DecidableEq κ]

/-- The order in which a set is iterated: any listing of its elements. -/
structure Listing (κ : Type) where
  list : Finset κ → List κ
  mem_list : ∀ {s x}, x ∈ list s ↔ x ∈ s
  nodup_list : ∀ s, (list s).Nodup

attribute [simp] Listing.mem_list

/-- `d[k].add(x)` on a dictionary of sets that makes the sets it lacks. -/
def addTo {κ' : Type} [DecidableEq κ'] (d : Dict κ (Finset κ')) (k : κ) (x : κ') :
    Dict κ (Finset κ') :=
  d.insert k (insert x ((d.lookup k).getD ∅))

theorem mem_addTo {κ' : Type} [DecidableEq κ'] {d : Dict κ (Finset κ')} {k a : κ} {x b : κ'} :
    b ∈ ((addTo d k x).lookup a).getD ∅ ↔ b ∈ (d.lookup a).getD ∅ ∨ (a = k ∧ b = x) := by
  rw [addTo, lookup_insert_ite]
  split_ifs with ha
  · subst ha
    simp [or_comm]
  · simp [ha]

/-- The sets of a dictionary turned round: every key goes to the sets of its elements. -/
theorem mem_turned {α : Type} {d : Dict κ α} {elems : (Sigma fun _ : κ => α) → List κ} {a b : κ} :
    b ∈ ((d.entries.foldl (fun rev e => (elems e).foldl (fun rev x => addTo rev x e.1) rev)
      (∅ : Dict κ (Finset κ))).lookup a).getD ∅ ↔ ∃ x ∈ d.lookup b, a ∈ elems ⟨b, x⟩ := by
  have hentry : ∀ (rev : Dict κ (Finset κ)) (e : Sigma fun _ : κ => α),
      b ∈ (((elems e).foldl (fun rev x => addTo rev x e.1) rev).lookup a).getD ∅ ↔
        b ∈ (rev.lookup a).getD ∅ ∨ ∃ x ∈ elems e, a = x ∧ b = e.1 := fun rev e =>
    Run.foldl_iff (P := fun rev : Dict κ (Finset κ) => b ∈ (rev.lookup a).getD ∅)
      (Q := fun x => a = x ∧ b = e.1) (fun _ _ => mem_addTo) (elems e) rev
  rw [Run.foldl_iff (P := fun rev : Dict κ (Finset κ) => b ∈ (rev.lookup a).getD ∅) hentry]
  constructor
  · rintro (h | ⟨⟨k, x⟩, he, y, hy, rfl, rfl⟩)
    · simp at h
    · exact ⟨x, AList.mem_lookup_iff.mpr he, hy⟩
  · rintro ⟨x, hlookup, ha⟩
    exact .inr ⟨⟨b, x⟩, AList.mem_lookup_iff.mp hlookup, a, ha, rfl, rfl⟩

/-! ### The program -/

variable (listing : κ → Listing κ) (adj : κ → List κ) (nodes : List κ)

/-- `radj`; `adj n` is what iterating over `adj.get(n, ())` gives. -/
def reverseAdj : Dict κ (Finset κ) :=
  nodes.foldl (fun radj u =>
    (adj u).foldl (fun radj v => if v ∈ nodes then addTo radj v u else radj) radj)
    (nodes.foldl (fun radj n => radj.insert n ∅) ∅)

/-- The state of the first search; the head of the list is the top of the stack. -/
structure Finishing (κ : Type) where
  visited : Finset κ
  order : List κ
  stack : List (κ × Bool)

/-- The successors that are left to visit go on the stack. -/
def pushSuccs (visited : Finset κ) (stack : List (κ × Bool)) (vs : List κ) : List (κ × Bool) :=
  vs.foldl (fun stack v => if v ∈ nodes ∧ v ∉ visited then (v, false) :: stack else stack) stack

/-- One round of the first search. -/
def visitTop (s : Finishing κ) : Finishing κ :=
  match s.stack with
  | [] => s
  | (n, true) :: stack => { s with order := s.order ++ [n], stack }
  | (n, false) :: stack =>
    if n ∈ s.visited then { s with stack }
    else
      let visited := insert n s.visited
      { s with visited, stack := pushSuccs nodes visited ((n, true) :: stack) (adj n) }

def finishFrom (s : Finishing κ) (start : κ) : Prog (Finishing κ) :=
  if start ∈ s.visited then pure s
  else whileLoop (fun s => !s.stack.isEmpty) (visitTop adj nodes) { s with stack := [(start, false)] }

/-- The first search. -/
def finishAll : Prog (Finishing κ) :=
  nodes.foldlM (finishFrom adj nodes) { visited := ∅, order := [], stack := [] }

/-- The state of the second search. -/
structure Components (κ : Type) where
  visited : Finset κ
  sccs : List (Finset κ)

/-- The component of a node that has not been found yet; `listing n` is the order of `radj[n]`. -/
def collectFrom (radj : Dict κ (Finset κ)) (c : Components κ) (start : κ) : Prog (Components κ) :=
  if start ∈ c.visited then pure c
  else do
    let found ← explore .front (fun n => (listing n).list ((radj.lookup n).getD ∅))
      { marked := insert start c.visited, work := [start], taken := ∅ }
    pure { visited := found.marked, sccs := c.sccs ++ [found.taken] }

def computeSccsIterative : Prog (List (Finset κ)) := do
  let finished ← finishAll adj nodes
  let found ← finished.order.reverse.foldlM (collectFrom listing (reverseAdj adj nodes))
    { visited := ∅, sccs := [] }
  pure found.sccs

/-! ### The edges -/

/-- An edge inside the node set. -/
def Within (u v : κ) : Prop := u ∈ nodes ∧ v ∈ nodes ∧ v ∈ adj u

variable {adj nodes}

theorem mem_reverseAdj {a b : κ} :
    b ∈ ((reverseAdj adj nodes).lookup a).getD ∅ ↔ Within adj nodes b a := by
  have hedge : ∀ (u : κ) (radj : Dict κ (Finset κ)) (v : κ),
      b ∈ ((if v ∈ nodes then addTo radj v u else radj).lookup a).getD ∅ ↔
        b ∈ (radj.lookup a).getD ∅ ∨ (v ∈ nodes ∧ a = v ∧ b = u) := by
    intro u radj v
    split_ifs with hv
    · rw [mem_addTo, and_iff_right hv]
    · simp [hv]
  have hnode : ∀ (radj : Dict κ (Finset κ)) (u : κ),
      b ∈ (((adj u).foldl (fun radj v => if v ∈ nodes then addTo radj v u else radj) radj).lookup
        a).getD ∅ ↔ b ∈ (radj.lookup a).getD ∅ ∨ (a ∈ nodes ∧ a ∈ adj u ∧ b = u) := by
    intro radj u
    rw [Run.foldl_iff (P := fun radj : Dict κ (Finset κ) => b ∈ (radj.lookup a).getD ∅) (hedge u)]
    refine or_congr Iff.rfl ⟨?_, ?_⟩
    · rintro ⟨v, hv, hmem, rfl, rfl⟩
      exact ⟨hmem, hv, rfl⟩
    · rintro ⟨hmem, hv, rfl⟩
      exact ⟨a, hv, hmem, rfl, rfl⟩
  have hinit : b ∉ ((nodes.foldl (fun (radj : Dict κ (Finset κ)) n => radj.insert n ∅) ∅).lookup a).getD
      ∅ := by
    rw [lookup_foldl_insert]
    split_ifs <;> simp
  unfold reverseAdj
  rw [Run.foldl_iff (P := fun radj : Dict κ (Finset κ) => b ∈ (radj.lookup a).getD ∅) hnode,
    or_iff_right hinit]
  constructor
  · rintro ⟨u, hu, ha, hadj, rfl⟩
    exact ⟨hu, ha, hadj⟩
  · rintro ⟨hb, ha, hadj⟩
    exact ⟨b, hb, ha, hadj, rfl⟩

/-! ### The first search -/

theorem pushSuccs_eq (visited : Finset κ) : ∀ (vs : List κ) (stack : List (κ × Bool)),
    pushSuccs nodes visited stack vs =
      ((vs.filter fun v => v ∈ nodes ∧ v ∉ visited).map (·, false)).reverse ++ stack
  | [], stack => rfl
  | v :: vs, stack => by
    have ih := pushSuccs_eq visited vs
    unfold pushSuccs at ih ⊢
    rw [foldl_cons, ih]
    by_cases hv : v ∈ nodes ∧ v ∉ visited
    · simp [hv]
    · simp [hv]

/-- The open nodes of a stack are only waiting for what `ok` holds of or what lies above them. -/
def Pending (R : κ → κ → Prop) : (κ → Prop) → List (κ × Bool) → Prop
  | _, [] => True
  | ok, (n, true) :: stack => (∀ v, R n v → ok v) ∧ Pending R ok stack
  | ok, (n, false) :: stack => Pending R (fun v => ok v ∨ v = n) stack

omit [DecidableEq κ] in
theorem Pending.mono {R : κ → κ → Prop} : ∀ {stack : List (κ × Bool)} {ok ok' : κ → Prop},
    (∀ v, ok v → ok' v) → Pending R ok stack → Pending R ok' stack
  | [], _, _, _, _ => trivial
  | (_, true) :: _, _, _, hok, h => ⟨fun v hv => hok v (h.1 v hv), h.2.mono hok⟩
  | (n, false) :: stack, ok, ok', hok, h => by
    have hbefore : Pending R (fun v => ok v ∨ v = n) stack := h
    have hafter : Pending R (fun v => ok' v ∨ v = n) stack :=
      hbefore.mono fun v hv => hv.imp_left (hok v)
    exact hafter

omit [DecidableEq κ] in
theorem pending_append {R : κ → κ → Prop} :
    ∀ {vs : List κ} {stack : List (κ × Bool)} {ok : κ → Prop},
    Pending R ok (vs.map (·, false) ++ stack) ↔ Pending R (fun v => ok v ∨ v ∈ vs) stack
  | [], _, _ => by simp
  | w :: vs, stack, ok => by
    have ih : Pending R (fun v => ok v ∨ v = w) (vs.map (·, false) ++ stack) ↔
        Pending R (fun v => (ok v ∨ v = w) ∨ v ∈ vs) stack := pending_append
    simp only [map_cons, cons_append, Pending, ih, mem_cons, or_assoc]

/-- The open nodes of a stack. -/
def opened (stack : List (κ × Bool)) : List κ := (stack.filter (·.2)).map (·.1)

omit [DecidableEq κ] in
theorem mem_opened {stack : List (κ × Bool)} {n : κ} : n ∈ opened stack ↔ (n, true) ∈ stack := by
  simp [opened]

/-- Where the first search stands. -/
structure Visiting (adj : κ → List κ) (nodes : List κ) (s : Finishing κ) : Prop where
  stack_mem : ∀ e ∈ s.stack, e.1 ∈ nodes
  order_mem : ∀ n ∈ s.order, n ∈ nodes
  visited_iff : ∀ n, n ∈ s.visited ↔ n ∈ s.order ∨ n ∈ opened s.stack
  nodup : (opened s.stack ++ s.order.reverse).Nodup
  chain : s.stack.Pairwise fun above below =>
    below.2 = true → ReflTransGen (Within adj nodes) below.1 above.1
  pending : Pending (Within adj nodes) (· ∈ s.visited) s.stack
  closed : ∀ b ∈ s.order, ∀ v, Within adj nodes b v → v ∈ s.visited
  finishes : Finishes (Within adj nodes) s.order.reverse

variable {s : Finishing κ} {n : κ} {stack : List (κ × Bool)}

omit [DecidableEq κ] in
theorem Visiting.finish (h : Visiting adj nodes s) (hstack : s.stack = (n, true) :: stack) :
    Visiting adj nodes { s with order := s.order ++ [n], stack } := by
  obtain ⟨visited, order, _⟩ := s
  cases hstack
  have hopened : opened ((n, true) :: stack) = n :: opened stack := rfl
  have hvisited : ∀ m, m ∈ visited ↔ m ∈ order ++ [n] ∨ m ∈ opened stack := by
    intro m
    rw [h.visited_iff, hopened, mem_cons, mem_append, mem_singleton, or_assoc]
  -- what a finished node leads to is visited: it is finished, or open and reaches `n`
  have hclosed : ∀ b ∈ order ++ [n], ∀ v, Within adj nodes b v → v ∈ visited :=
    forall_mem_concat.mpr ⟨h.closed, h.pending.1⟩
  have hchain := pairwise_cons.mp h.chain
  constructor
  · exact fun e he => h.stack_mem e (mem_cons_of_mem _ he)
  · exact forall_mem_concat.mpr ⟨h.order_mem, h.stack_mem (n, true) mem_cons_self⟩
  · exact hvisited
  · have hnodup := h.nodup
    rw [reverse_append, reverse_singleton, singleton_append]
    exact (nodup_middle).mpr hnodup
  · exact hchain.2
  · exact h.pending.2
  · exact hclosed
  · rw [reverse_append, reverse_singleton, singleton_append]
    refine ⟨fun b hb c hedge => ?_, h.finishes⟩
    have hb' : b ∈ order ++ [n] := by simpa [or_comm] using hb
    rcases (hvisited c).mp (hclosed b hb' c hedge) with hc | hc
    · left
      simpa [or_comm] using hc
    · exact .inr (hchain.1 (c, true) (mem_opened.mp hc) rfl)

omit [DecidableEq κ] in
/-- A node that was visited since it was put on the stack is dropped. -/
theorem Visiting.drop (h : Visiting adj nodes s) (hstack : s.stack = (n, false) :: stack)
    (hn : n ∈ s.visited) : Visiting adj nodes { s with stack } := by
  obtain ⟨visited, order, _⟩ := s
  cases hstack
  have hpending : Pending (Within adj nodes) (fun v => v ∈ visited ∨ v = n) stack := h.pending
  exact { h with
    stack_mem := fun e he => h.stack_mem e (mem_cons_of_mem _ he)
    chain := (pairwise_cons.mp h.chain).2
    pending := hpending.mono fun v hv => hv.elim id fun heq => heq ▸ hn }

/-- A node is visited, and what it leads to is put on the stack. -/
theorem Visiting.visit (h : Visiting adj nodes s) (hstack : s.stack = (n, false) :: stack)
    (hn : n ∉ s.visited) : Visiting adj nodes { s with
      visited := insert n s.visited
      stack := pushSuccs nodes (insert n s.visited) ((n, true) :: stack) (adj n) } := by
  obtain ⟨visited, order, _⟩ := s
  cases hstack
  have hnode : n ∈ nodes := h.stack_mem (n, false) mem_cons_self
  have hchain := pairwise_cons.mp h.chain
  have hpending : Pending (Within adj nodes) (fun v => v ∈ visited ∨ v = n) stack := h.pending
  have hnew : n ∉ order ∧ n ∉ opened stack := by
    rw [← not_or]
    exact fun hmem => hn ((h.visited_iff n).mpr hmem)
  set vs := ((adj n).filter fun v => v ∈ nodes ∧ v ∉ insert n visited).reverse with hvs
  have hmem : ∀ v, v ∈ vs ↔ v ∈ adj n ∧ v ∈ nodes ∧ v ∉ insert n visited := by
    intro v
    rw [hvs, mem_reverse, mem_filter, decide_eq_true_iff]
  have hpush : pushSuccs nodes (insert n visited) ((n, true) :: stack) (adj n) =
      vs.map (·, false) ++ (n, true) :: stack := by
    rw [pushSuccs_eq, hvs, map_reverse]
  have hopened : opened (vs.map (·, false) ++ (n, true) :: stack) = n :: opened stack := by
    simp [opened]
  rw [hpush]
  constructor
  · exact forall_mem_append.mpr ⟨forall_mem_map.mpr fun v hv => ((hmem v).mp hv).2.1,
      forall_mem_cons.mpr (forall_mem_cons.mp h.stack_mem)⟩
  · exact h.order_mem
  · intro m
    have hold : m ∈ visited ↔ m ∈ order ∨ m ∈ opened stack := h.visited_iff m
    rw [hopened, Finset.mem_insert, hold, mem_cons, or_left_comm]
  · rw [hopened, cons_append, nodup_cons]
    refine ⟨?_, h.nodup⟩
    rw [mem_append, mem_reverse, or_comm, not_or]
    exact hnew
  · rw [pairwise_append]
    refine ⟨?_, ?_, ?_⟩
    · rw [pairwise_map]
      exact pairwise_of_forall fun _ _ hfalse => absurd hfalse Bool.false_ne_true
    · exact pairwise_cons.mpr hchain
    · intro above habove below hbelow hopen
      obtain ⟨v, hv, rfl⟩ := mem_map.mp habove
      have hedge : Within adj nodes n v := ⟨hnode, ((hmem v).mp hv).2.1, ((hmem v).mp hv).1⟩
      rcases mem_cons.mp hbelow with rfl | hbelow
      · exact .single hedge
      · exact (hchain.1 below hbelow hopen).tail hedge
  · rw [pending_append]
    refine ⟨fun v hedge => ?_, hpending.mono fun v hv => .inl ?_⟩
    · by_cases hv : v ∈ insert n visited
      · exact .inl hv
      · exact .inr ((hmem v).mpr ⟨hedge.2.2, hedge.2.1, hv⟩)
    · rcases hv with hv | rfl
      · exact Finset.mem_insert_of_mem hv
      · exact Finset.mem_insert_self _ _
  · exact fun b hb v hedge => Finset.mem_insert_of_mem (h.closed b hb v hedge)
  · exact h.finishes

/-- What is left to do: nodes to visit, then entries of the stack. -/
def remaining (nodes : List κ) (s : Finishing κ) : ℕ ×ₗ ℕ :=
  toLex ((nodes.toFinset \ s.visited).card, s.stack.length)

theorem Visiting.visitTop (h : Visiting adj nodes s) (hne : s.stack ≠ []) :
    Visiting adj nodes (visitTop adj nodes s) ∧
      remaining nodes (Extractor.visitTop adj nodes s) < remaining nodes s := by
  obtain ⟨⟨n, expanded⟩, stack, hstack⟩ := exists_cons_of_ne_nil hne
  have hshort : stack.length < s.stack.length := by
    rw [hstack]
    exact Nat.lt_succ_self _
  cases expanded with
  | true =>
    have heq : Extractor.visitTop adj nodes s = { s with order := s.order ++ [n], stack } := by
      rw [Extractor.visitTop, hstack]
    rw [heq]
    exact ⟨h.finish hstack, Prod.Lex.toLex_lt_toLex.mpr (.inr ⟨rfl, hshort⟩)⟩
  | false =>
    by_cases hn : n ∈ s.visited
    · have heq : Extractor.visitTop adj nodes s = { s with stack } := by
        rw [Extractor.visitTop, hstack]
        exact if_pos hn
      rw [heq]
      exact ⟨h.drop hstack hn, Prod.Lex.toLex_lt_toLex.mpr (.inr ⟨rfl, hshort⟩)⟩
    · have heq : Extractor.visitTop adj nodes s = { s with
          visited := insert n s.visited
          stack := pushSuccs nodes (insert n s.visited) ((n, true) :: stack) (adj n) } := by
        rw [Extractor.visitTop, hstack]
        exact if_neg hn
      rw [heq]
      refine ⟨h.visit hstack hn, Prod.Lex.toLex_lt_toLex.mpr (.inl ?_)⟩
      have hnode : n ∈ nodes := h.stack_mem (n, false) (hstack ▸ mem_cons_self)
      have hcard := card_sdiff_insert (mem_toFinset.mpr hnode) hn
      show (nodes.toFinset \ insert n s.visited).card < (nodes.toFinset \ s.visited).card
      omega

/-- Between two searches the stack is empty. -/
structure Visited (adj : κ → List κ) (nodes done : List κ) (s : Finishing κ) : Prop where
  visiting : Visiting adj nodes s
  stack_nil : s.stack = []
  done_mem : ∀ n ∈ done, n ∈ s.visited

theorem visited_visitTop (s : Finishing κ) {m : κ} (hm : m ∈ s.visited) :
    m ∈ (visitTop adj nodes s).visited := by
  unfold visitTop
  split
  · exact hm
  · exact hm
  · split_ifs
    · exact hm
    · exact Finset.mem_insert_of_mem hm

theorem finishFrom_ends {done : List κ} {start : κ} (h : Visited adj nodes done s)
    (hstart : start ∈ nodes) :
    Ends (finishFrom adj nodes s start) (Visited adj nodes (done ++ [start])) := by
  have hall : ∀ {t : Finishing κ}, (∀ n ∈ s.visited, n ∈ t.visited) → start ∈ t.visited →
      ∀ n ∈ done ++ [start], n ∈ t.visited := fun hkept ht =>
    forall_mem_concat.mpr ⟨fun n hn => hkept n (h.done_mem n hn), ht⟩
  unfold finishFrom
  split_ifs with hnew
  · exact .pure ⟨h.visiting, h.stack_nil, hall (fun _ => id) hnew⟩
  have hopened : opened s.stack = opened [(start, false)] := by
    rw [h.stack_nil]
    rfl
  have hinit : Visiting adj nodes { s with stack := [(start, false)] } := { h.visiting with
    stack_mem := by simpa using hstart
    visited_iff := hopened ▸ h.visiting.visited_iff
    nodup := hopened ▸ h.visiting.nodup
    chain := pairwise_singleton _ _
    pending := trivial }
  -- `start` is on the stack until it is visited
  refine (Ends.whileLoop (I := fun t => Visiting adj nodes t ∧ (∀ n ∈ s.visited, n ∈ t.visited) ∧
    (start ∈ t.visited ∨ t.stack = [(start, false)])) (remaining nodes)
    ⟨hinit, fun _ => id, .inr rfl⟩ ?_).mono ?_
  · rintro t ⟨ht, hkept, hfirst⟩ hcond
    obtain ⟨hnext, hless⟩ := ht.visitTop (by simpa using hcond)
    refine ⟨⟨hnext, fun n hn => visited_visitTop t (hkept n hn), .inl ?_⟩, hless⟩
    rcases hfirst with hfirst | hfirst
    · exact visited_visitTop t hfirst
    unfold visitTop
    rw [hfirst]
    by_cases hin : start ∈ t.visited
    · simp [hin]
    · simp [hin]
  · rintro t ⟨⟨ht, hkept, hfirst⟩, hcond⟩
    have hnil : t.stack = [] := by simpa using hcond
    refine ⟨ht, hnil, hall hkept (hfirst.resolve_right fun hfull => ?_)⟩
    rw [hnil] at hfull
    exact absurd hfull (cons_ne_nil _ _).symm

/-- The first search gives all nodes in the order in which they are finished. -/
theorem finishAll_ends : Ends (finishAll adj nodes) fun s => s.order.Nodup ∧
    (∀ n, n ∈ s.order ↔ n ∈ nodes) ∧ Finishes (Within adj nodes) s.order.reverse := by
  have hinit : Visited adj nodes [] (⟨∅, [], []⟩ : Finishing κ) := {
    visiting := {
      stack_mem := by simp
      order_mem := by simp
      visited_iff := by simp [opened]
      nodup := by simp [opened]
      chain := .nil
      pending := trivial
      closed := by simp
      finishes := trivial }
    stack_nil := rfl
    done_mem := by simp }
  refine (Ends.foldlM hinit fun done a ha s hs => finishFrom_ends hs ha).mono fun s hs => ?_
  have hnodup := hs.visiting.nodup
  have hvisited := hs.visiting.visited_iff
  simp only [hs.stack_nil, opened, filter_nil, map_nil, nil_append, nodup_reverse, not_mem_nil,
    or_false] at hnodup hvisited
  exact ⟨hnodup, fun n => ⟨hs.visiting.order_mem n, fun hn => (hvisited n).mp (hs.done_mem n hn)⟩,
    hs.visiting.finishes⟩

/-! ### The second search -/

/-- The components are those of a part of the nodes. -/
structure Collected (adj : κ → List κ) (nodes done : List κ) (c : Components κ) : Prop where
  done_mem : ∀ n ∈ done, n ∈ c.visited
  visited_iff : ∀ n, n ∈ c.visited ↔ ∃ comp ∈ c.sccs, n ∈ comp
  component : ∀ comp ∈ c.sccs, ∃ u ∈ nodes, ∀ v, v ∈ comp ↔ Mutual (Within adj nodes) u v
  disjoint : c.sccs.Pairwise Disjoint

omit [DecidableEq κ] in
theorem Collected.closed {done : List κ} {c : Components κ} (h : Collected adj nodes done c)
    (x y : κ) (hx : x ∈ c.visited) (hxy : Mutual (Within adj nodes) x y) : y ∈ c.visited := by
  obtain ⟨comp, hcomp, hmem⟩ := (h.visited_iff x).mp hx
  obtain ⟨u, -, hiff⟩ := h.component comp hcomp
  exact (h.visited_iff y).mpr ⟨comp, hcomp, (hiff y).mpr (((hiff x).mp hmem).trans hxy)⟩

theorem collectFrom_ends {listing : κ → Listing κ} {order done rest : List κ} {start : κ}
    {c : Components κ} (hnodup : order.Nodup) (hmem : ∀ n, n ∈ order ↔ n ∈ nodes)
    (hfinishes : Finishes (Within adj nodes) order) (hsplit : order = done ++ start :: rest)
    (h : Collected adj nodes done c) :
    Ends (collectFrom listing (reverseAdj adj nodes) c start) (Collected adj nodes (done ++ [start])) := by
  have hstart : start ∈ nodes := (hmem start).mp (hsplit ▸ mem_append_right done mem_cons_self)
  unfold collectFrom
  split_ifs with hnew
  · exact .pure { h with done_mem := forall_mem_concat.mpr ⟨h.done_mem, hnew⟩ }
  refine .bind (explore_ends nodes.toFinset ?_ ?_ rfl ?_) ?_
  · intro x _ y hy
    rw [Listing.mem_list, mem_reverseAdj] at hy
    exact mem_toFinset.mpr hy.1
  · simpa using hstart
  · simp
  · intro found hfound
    have htaken : ∀ y, y ∈ found.taken ↔ Mutual (Within adj nodes) start y := by
      intro y
      have hstep : Step (fun n => (listing n).list (((reverseAdj adj nodes).lookup n).getD ∅))
          (insert start c.visited) =
          fun a b => Within adj nodes b a ∧ b ≠ start ∧ b ∉ c.visited := by
        funext a b
        simp only [Step, Listing.mem_list, mem_reverseAdj, Finset.mem_insert, not_or]
      rw [hfound.taken, hstep]
      simp only [mem_singleton, exists_eq_left]
      refine Finishes.component_iff ?_ (hsplit ▸ hnodup) (hsplit ▸ hfinishes) h.done_mem h.closed hnew
      intro a b hab
      rw [← hsplit, hmem, hmem]
      exact ⟨hab.1, hab.2.1⟩
    have hvisited : ∀ n, n ∈ found.marked ↔ n ∈ c.visited ∨ n ∈ found.taken := by
      intro n
      rw [hfound.marked, Finset.mem_insert, or_assoc, or_iff_right_iff_imp]
      rintro rfl
      exact .inr ((htaken n).mpr (.refl n))
    refine .pure ?_
    constructor
    · exact forall_mem_concat.mpr ⟨fun n hn => (hvisited n).mpr (.inl (h.done_mem n hn)),
        (hvisited start).mpr (.inr ((htaken start).mpr (.refl start)))⟩
    · intro n
      rw [hvisited, h.visited_iff]
      simp [or_and_right, exists_or]
    · exact forall_mem_concat.mpr ⟨h.component, start, hstart, htaken⟩
    · refine pairwise_append.mpr ⟨h.disjoint, pairwise_singleton _ _, ?_⟩
      refine fun comp hcomp => forall_mem_singleton.mpr (Finset.disjoint_left.mpr fun y hy hy' => hnew ?_)
      exact h.closed y start ((h.visited_iff y).mpr ⟨comp, hcomp, hy⟩) ((htaken y).mp hy').symm

/-! ### The components -/

/-- The sets are the strongly connected components of the graph inside the node set. -/
structure AreSccs (adj : κ → List κ) (nodes : List κ) (sccs : List (Finset κ)) : Prop where
  cover : ∀ n, n ∈ nodes ↔ ∃ comp ∈ sccs, n ∈ comp
  disjoint : sccs.Pairwise Disjoint
  nonempty : ∀ comp ∈ sccs, comp.Nonempty
  same_iff : ∀ comp ∈ sccs, ∀ u ∈ comp, ∀ v, v ∈ comp ↔ Mutual (Within adj nodes) u v

theorem computeSccsIterative_ends (listing : κ → Listing κ) (adj : κ → List κ) (nodes : List κ) :
    Ends (computeSccsIterative listing adj nodes) (AreSccs adj nodes) := by
  refine finishAll_ends.bind ?_
  rintro s ⟨hnodup, hmem, hfinishes⟩
  have hinit : Collected adj nodes [] (⟨∅, []⟩ : Components κ) :=
    ⟨by simp, by simp, by simp, .nil⟩
  refine .bind (Ends.foldlM_split hinit fun done start rest c hsplit hc => collectFrom_ends
    (nodup_reverse.mpr hnodup) (by simpa using hmem) hfinishes hsplit hc) fun c hc => .pure ?_
  have hcomponent := hc.component
  constructor
  · intro n
    rw [← hc.visited_iff]
    constructor
    · intro hn
      exact hc.done_mem n (mem_reverse.mpr ((hmem n).mpr hn))
    · intro hn
      obtain ⟨comp, hcomp, hin⟩ := (hc.visited_iff n).mp hn
      obtain ⟨u, hu, hiff⟩ := hcomponent comp hcomp
      rcases ((hiff n).mp hin).1.cases_tail with rfl | ⟨b, -, hedge⟩
      · exact hu
      · exact hedge.2.1
  · exact hc.disjoint
  · intro comp hcomp
    obtain ⟨u, -, hiff⟩ := hcomponent comp hcomp
    exact ⟨u, (hiff u).mpr (.refl u)⟩
  · intro comp hcomp u hu v
    obtain ⟨w, -, hiff⟩ := hcomponent comp hcomp
    have hwu := (hiff u).mp hu
    rw [hiff]
    exact ⟨hwu.symm.trans, hwu.trans⟩

/-- The search ends and gives a partition of the nodes, in which two nodes are together exactly if
    each reaches the other inside the node set. -/
theorem compute_sccs_partition (listing : κ → Listing κ) (adj : κ → List κ) (nodes : List κ) :
    Ends (computeSccsIterative listing adj nodes) fun sccs =>
      (∀ n, n ∈ nodes ↔ ∃ comp ∈ sccs, n ∈ comp) ∧ sccs.Pairwise Disjoint ∧
      (∀ comp ∈ sccs, comp.Nonempty) ∧
      ∀ u ∈ nodes, ∀ v ∈ nodes, (∃ comp ∈ sccs, u ∈ comp ∧ v ∈ comp) ↔
        ReflTransGen (Within adj nodes) u v ∧ ReflTransGen (Within adj nodes) v u := by
  refine (computeSccsIterative_ends listing adj nodes).mono fun sccs h => ?_
  refine ⟨h.cover, h.disjoint, h.nonempty, fun u hu v _ => ?_⟩
  constructor
  · rintro ⟨comp, hcomp, hu, hv⟩
    exact (h.same_iff comp hcomp u hu v).mp hv
  · intro hmutual
    obtain ⟨comp, hcomp, hmem⟩ := (h.cover u).mp hu
    exact ⟨comp, hcomp, hmem, (h.same_iff comp hcomp u hmem v).mpr hmutual⟩

end Bofuzz.Extractor
