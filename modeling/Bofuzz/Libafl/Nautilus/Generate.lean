import Bofuzz.Libafl.Nautilus.Tree

/-! Random derivation trees (`context.rs`, `rule.rs`, `tree.rs`).

    `Rule::generate` gives every child its minimum and a random share of what is left of the length,
    chooses a rule that fits, and pushes the nodes to the three vectors of the tree in pre-order.
    What it returns is a derivation with the right sizes and parents, whatever sizes the context
    has. -/

namespace Bofuzz.Nautilus
open Bofuzz.Rand Result Preorder Drawing List Nautilus.Tree

variable {G : Grammar} {R C : Type} [Rand R] [Rand C]

/-- `map[&key]`. -/
def entry {α : Type} : Option α → Except Panic α
  | some a => .ok a
  | none => .error .noEntry

/-- `assert!`. -/
def check (p : Prop) [Decidable p] : Except Panic Unit := if p then .ok () else .error .assertion

/-- The loop of `simple_get_random_len`. -/
def proposals (totalRemainingLen : ℕ) : ℕ → ℕ → StateM R ℕ
  | 0, res => pure res
  | n + 1, res => do
    let proposal ← between 0 totalRemainingLen
    proposals totalRemainingLen n (if proposal < res then proposal else res)

/-- `simple_get_random_len`. The number of children has to be an `i32`. -/
def simpleGetRandomLen (numberOfChildren totalRemainingLen : ℕ) : Drawing R Panic ℕ :=
  if numberOfChildren < 2 ^ 31 then
    draw (proposals totalRemainingLen (numberOfChildren - 1) totalRemainingLen)
  else throw .tooManyChildren

variable (ctx : Context G)

/-- The filter of `get_applicable_rules`. -/
def keepRule (pIncludeShortRules : ℕ) (r : G.RuleId) : Drawing R Panic Bool := do
  if 1 < (← ofResult (entry (ctx.rulesToNumOptions r))) then return true
  else return (← draw (below 100)) ≤ pIncludeShortRules

/-- The rules that `get_applicable_rules` yields, from a list of candidates. -/
def applicableRules (maxLen pIncludeShortRules : ℕ) :
    List G.RuleId → Drawing R Panic (List G.RuleId)
  | [] => pure []
  | r :: rules => do
    let size ← ofResult (entry (ctx.rulesToMinSize r))
    if size ≤ maxLen then
      let keep ← keepRule ctx pIncludeShortRules r
      let rest ← applicableRules maxLen pIncludeShortRules rules
      return if keep then r :: rest else rest
    else return []

variable (withSeed : UInt64 → C)

/-- `choose_applicable_rule`. The choice is made by a generator of its own, seeded with a draw. -/
def chooseApplicableRule (ctx : Context G) (maxLen : ℕ) (nt : NTermId)
    (pIncludeShortRules : ℕ) : Drawing R Panic (Option G.RuleId) := do
  let seed ← draw draw
  let candidates ← ofResult (entry (ctx.ntsToRules nt))
  let rules ← applicableRules ctx maxLen pIncludeShortRules candidates
  return (chooseFiltered rules (withSeed seed)).1

/-- `get_random_rule_for_nt`. -/
def getRandomRuleForNt (ctx : Context G) (nt : NTermId) (maxLen : ℕ) :
    Drawing R Panic G.RuleId := do
  match ← chooseApplicableRule withSeed ctx maxLen nt 100 with
  | some rule => return rule
  | none =>
    match ← chooseApplicableRule withSeed ctx maxLen nt 100 with
    | some rule => return rule
    | none => throw .noWayToDerive

/-- The node of a rule. -/
def ruleOrCustom (rounds : ℕ) (rid : G.RuleId) : Drawing R Panic (RuleIdOrCustom G) :=
  match G.getRule rid with
  | .regExp _ hir => do return .custom rid (← Regex.generate rounds hir)
  | _ => pure (.rule rid)

/-- `xs[i] = x`. -/
def setAt (xs : List ℕ) (i x : ℕ) : Except Panic (List ℕ) :=
  if i < xs.length then .ok (xs.set i x) else .error .index

/-- `tree.rules.push(..); tree.sizes.push(0); tree.paren.push(0)`. -/
def Tree.push (t : Tree G) (x : RuleIdOrCustom G) : Tree G where
  rules := t.rules ++ [x]
  sizes := t.sizes ++ [0]
  paren := t.paren ++ [0]

/-- The sum of the minimum lengths, `minimal_needed_len`. -/
def minimalNeededLen : List NTermId → ℕ → Except Panic ℕ
  | [], sum => .ok sum
  | nt :: nts, sum => do
    minimalNeededLen nts (← checkedAdd sum (← entry (ctx.ntsToMinSize nt)))

/-- The loop of `Rule::generate` over the children, where `gen` generates what is below a child. The
    slice `new_nterms` is never empty. -/
def generateChildren (ctx : Context G) (rounds : ℕ)
    (gen : Rule → Tree G → ℕ → Drawing R Panic (ℕ × Tree G)) (paren : ℕ) :
    List NTermId → Tree G → (remainingLen totalSize : ℕ) → Drawing R Panic (ℕ × Tree G)
  | [], tree, _, totalSize => return (totalSize, tree)
  | nt :: nts, tree, remainingLen, totalSize => do
    let share ← simpleGetRandomLen (nts.length + 1) remainingLen
    let min ← ofResult (entry (ctx.ntsToMinSize nt))
    let curChildMaxLen ← ofResult (checkedAdd share min)
    let rid ← getRandomRuleForNt withSeed ctx nt curChildMaxLen
    let node ← ruleOrCustom rounds rid
    ofResult (check (tree.rules.length = tree.sizes.length))
    ofResult (check (tree.sizes.length = tree.paren.length))
    let childLen ← ofResult (Regex.checkedSub curChildMaxLen 1)
    let out ← gen (G.getRule rid) (tree.push node) childLen
    let sizes ← ofResult (setAt out.2.sizes tree.rules.length out.1)
    let parents ← ofResult (setAt out.2.paren tree.rules.length paren)
    ofResult (check (out.1 ≤ curChildMaxLen))
    ofResult (check (min ≤ out.1))
    let more ← ofResult (checkedAdd remainingLen min)
    let rest ← ofResult (Regex.checkedSub more out.1)
    let total ← ofResult (checkedAdd totalSize out.1)
    generateChildren ctx rounds gen paren nts ⟨out.2.rules, sizes, parents⟩ rest total

/-- `Rule::generate`, with a bound on the depth of the recursion. -/
def Rule.generate (withSeed : UInt64 → C) (ctx : Context G) (rounds : ℕ) :
    ℕ → Rule → Tree G → ℕ → Drawing R Panic (ℕ × Tree G)
  | 0, _, _, _ => throw .unfinished
  | n + 1, rule, tree, len => do
    let needed ← ofResult (minimalNeededLen ctx rule.nonterms 0)
    ofResult (check (needed ≤ len))
    let remainingLen ← ofResult (Regex.checkedSub len needed)
    let paren ← ofResult (Regex.checkedSub tree.rules.length 1)
    generateChildren withSeed ctx rounds (Rule.generate withSeed ctx rounds n) paren rule.nonterms tree
      remainingLen 1

/-- `Tree::generate_from_rule`. The tree is truncated first, so that its old contents do not
    matter. -/
def generateFromRule (ctx : Context G) (rounds : ℕ) (ruleid : G.RuleId)
    (maxLen : ℕ) : Drawing R Panic (Tree G) := do
  let node ← ruleOrCustom rounds ruleid
  match G.getRule ruleid with
  | .regExp _ _ => return ⟨[node], [1], [0]⟩
  | rule =>
    let out ← rule.generate withSeed ctx rounds rounds ⟨[node], [0], [0]⟩ maxLen
    let sizes ← ofResult (setAt out.2.sizes 0 out.2.rules.length)
    return ⟨out.2.rules, sizes, out.2.paren⟩

/-- `Tree::generate_from_nt`, and `Context::generate_tree_from_nt` on an empty tree. -/
def generateFromNt (ctx : Context G) (rounds : ℕ) (start : NTermId) (len : ℕ) :
    Drawing R Panic (Tree G) := do
  let ruleid ← getRandomRuleForNt withSeed ctx start len
  let maxLen ← ofResult (Regex.checkedSub len 1)
  generateFromRule withSeed ctx rounds ruleid maxLen

/-! ### What is generated is a derivation -/

section
variable {withSeed : UInt64 → C} {ctx : Context G} {rounds : ℕ} {r r' : R}

/-- The rule is one of the nonterminal and fits into the length. -/
def Context.Fits (ctx : Context G) (nt : NTermId) (len : ℕ) (rule : G.RuleId) : Prop :=
  (G.getRule rule).nonterm = nt ∧ ∃ m ≤ len, ctx.rulesToMinSize rule = some m

variable {nt : NTermId} {rule : G.RuleId}

theorem Context.Fits.mono {len len' : ℕ} (h : ctx.Fits nt len rule) (hle : len ≤ len') :
    ctx.Fits nt len' rule := by
  obtain ⟨hnt, m, hm, hsize⟩ := h
  exact ⟨hnt, m, Nat.le_trans hm hle, hsize⟩

theorem entry_eq_ok {α : Type} {x : Option α} {a : α} : entry x = .ok a ↔ x = some a := by
  cases x <;> simp [entry]

theorem applicableRules_mem {maxLen p : ℕ} : ∀ {candidates out : List G.RuleId} {r r' : R},
    applicableRules ctx maxLen p candidates r = .ok (out, r') →
      ∀ x ∈ out, x ∈ candidates ∧ ∃ m ≤ maxLen, ctx.rulesToMinSize x = some m
  | [], out, r, r', h => by
    cases h
    simp
  | c :: candidates, out, r, r', h => by
    obtain ⟨size, r₁, hsize, hrest⟩ := Drawing.bind_eq_ok.mp h
    obtain ⟨hsize, -⟩ := ofResult_eq_ok.mp hsize
    rw [entry_eq_ok] at hsize
    split at hrest
    · next hle =>
      obtain ⟨keep, r₂, -, hrest⟩ := Drawing.bind_eq_ok.mp hrest
      obtain ⟨rest, r₃, htail, hpure⟩ := Drawing.bind_eq_ok.mp hrest
      cases hpure
      have hrec : ∀ x ∈ rest, _ := fun x hx => (applicableRules_mem htail x hx).imp_left (mem_cons_of_mem c)
      split
      · exact forall_mem_cons.mpr ⟨⟨mem_cons_self, size, hle, hsize⟩, hrec⟩
      · exact hrec
    · cases hrest
      simp

theorem chooseApplicableRule_fits (hfiled : ctx.Filed) {maxLen p : ℕ}
    (h : chooseApplicableRule withSeed ctx maxLen nt p r = .ok (some rule, r')) :
    ctx.Fits nt maxLen rule := by
  obtain ⟨seed, r₁, -, hrest⟩ := Drawing.bind_eq_ok.mp h
  obtain ⟨candidates, r₂, hcandidates, hrest⟩ := Drawing.bind_eq_ok.mp hrest
  obtain ⟨hcandidates, -⟩ := ofResult_eq_ok.mp hcandidates
  obtain ⟨rules, r₃, hrules, hpure⟩ := Drawing.bind_eq_ok.mp hrest
  obtain ⟨hchoice, -⟩ := Drawing.pure_eq_ok.mp hpure
  rcases yields_chooseFiltered rules (withSeed seed) with ⟨hnone, -⟩ | ⟨x, hx, hsome⟩
  · rw [hchoice] at hnone
    cases hnone
  rw [hchoice] at hsome
  cases hsome
  obtain ⟨hmem, hsize⟩ := applicableRules_mem hrules rule hx
  exact ⟨(hfiled nt rule).mp ⟨candidates, entry_eq_ok.mp hcandidates, hmem⟩, hsize⟩

theorem getRandomRuleForNt_fits (hfiled : ctx.Filed) {maxLen : ℕ}
    (h : getRandomRuleForNt withSeed ctx nt maxLen r = .ok (rule, r')) :
    ctx.Fits nt maxLen rule := by
  obtain ⟨first, r₁, hfirst, hrest⟩ := Drawing.bind_eq_ok.mp h
  cases first with
  | some rule' =>
    cases hrest
    exact chooseApplicableRule_fits hfiled hfirst
  | none =>
    obtain ⟨second, r₂, hsecond, hrest⟩ := Drawing.bind_eq_ok.mp hrest
    cases second with
    | some rule' =>
      cases hrest
      exact chooseApplicableRule_fits hfiled hsecond
    | none => exact (throw_eq_ok hrest).elim

variable {node : RuleIdOrCustom G}

theorem ruleOrCustom_id {rid : G.RuleId} (h : ruleOrCustom rounds rid r = .ok (node, r')) :
    node.id = rid := by
  cases hrule : G.getRule rid with
  | regExp nonterm hir =>
    simp only [ruleOrCustom, hrule] at h
    obtain ⟨data, r₁, -, hpure⟩ := Drawing.bind_eq_ok.mp h
    cases hpure
    rfl
  | plain | script =>
    simp only [ruleOrCustom, hrule] at h
    cases h
    rfl

/-- The three vectors have the same length. -/
structure Tree.Aligned (t : Tree G) : Prop where
  sizes : t.sizes.length = t.rules.length
  paren : t.paren.length = t.rules.length

/-- The tree with more nodes at its end. -/
def Tree.grow (t : Tree G) (w : List (RuleIdOrCustom G)) (z q : List ℕ) : Tree G where
  rules := t.rules ++ w
  sizes := t.sizes ++ z
  paren := t.paren ++ q

/-- Terms of the nonterminals have been added to the tree, as children of `paren`. -/
def Grown (paren : ℕ) (nts : List NTermId) (tree tree' : Tree G) (count : ℕ) : Prop :=
  ∃ w z q, Nodes G.nodes tree.rules.length paren nts w z q ∧ tree' = tree.grow w z q ∧ count = w.length

theorem setAt_append {xs ys : List ℕ} {y x i : ℕ} (hi : xs.length = i) :
    setAt (xs ++ [y] ++ ys) i x = .ok (xs ++ (x :: ys)) := by
  subst hi
  rw [setAt, if_pos (by simp)]
  simp

variable {tree : Tree G}

theorem grown_child {paren : ℕ} (nts : List NTermId) (haligned : tree.Aligned)
    (hnode : node.nonterm = nt) {below : Tree G} {count : ℕ}
    (hbelow : Grown tree.rules.length node.nonterms (tree.push node) below count)
    {sizes parents : List ℕ} (hsizes : setAt below.sizes tree.rules.length (1 + count) = .ok sizes)
    (hparents : setAt below.paren tree.rules.length paren = .ok parents) :
    Tree.Aligned ⟨below.rules, sizes, parents⟩ ∧
      ∀ {tree' : Tree G} {count' : ℕ}, Grown paren nts ⟨below.rules, sizes, parents⟩ tree' count' →
        Grown paren (nt :: nts) tree tree' (1 + count + count') := by
  obtain ⟨w, z, q, hnodes, rfl, rfl⟩ := hbelow
  have hz := hnodes.length_sizes
  have hq := hnodes.length_parents
  rw [grow, push, setAt_append haligned.sizes] at hsizes
  rw [grow, push, setAt_append haligned.paren] at hparents
  cases hsizes
  cases hparents
  have hsizesLen := haligned.sizes
  have hparenLen := haligned.paren
  constructor
  · constructor <;> simp [grow, push] <;> omega
  · rintro tree' count' ⟨w', z', q', hnodes', rfl, rfl⟩
    have hoffset : (tree.push node).rules.length = tree.rules.length + 1 := by simp [push]
    have hoffset' : ((tree.push node).grow w z q).rules.length = tree.rules.length + 1 + w.length := by
      simp [push, grow]
      omega
    rw [hoffset] at hnodes
    simp only [hoffset'] at hnodes'
    subst hnode
    refine ⟨_, _, _, Nodes.cons (a := node) hnodes hnodes', ?_, ?_⟩
    · simp [grow, push, Nat.add_comm]
    · simp only [length_cons, length_append]
      omega

/-- What generates the children of a rule below the last node of a tree. -/
def GeneratesBelow (gen : Rule → Tree G → ℕ → Drawing R Panic (ℕ × Tree G)) : Prop :=
  ∀ (rule : Rule) (tree : Tree G) (len : ℕ) (out : ℕ × Tree G) (r r' : R), tree.Aligned →
    gen rule tree len r = .ok (out, r') →
      ∃ count, out.1 = 1 + count ∧ Grown (tree.rules.length - 1) rule.nonterms tree out.2 count

theorem grown_below {below : Tree G} {rid : G.RuleId} {count : ℕ} (hid : node.id = rid)
    (h : Grown ((tree.push node).rules.length - 1) (G.getRule rid).nonterms (tree.push node) below count) :
    Grown tree.rules.length node.nonterms (tree.push node) below count := by
  have hparen : (tree.push node).rules.length - 1 = tree.rules.length := by simp [push]
  have hnonterms : (G.getRule rid).nonterms = node.nonterms := by rw [RuleIdOrCustom.nonterms, hid]
  rwa [hparen, hnonterms] at h

theorem Tree.Aligned.push (h : tree.Aligned) (node : RuleIdOrCustom G) :
    (tree.push node).Aligned := by
  constructor
  · simp [Tree.push, h.sizes]
  · simp [Tree.push, h.paren]

theorem generateChildren_grown (hfiled : ctx.Filed)
    {gen : Rule → Tree G → ℕ → Drawing R Panic (ℕ × Tree G)} (hgen : GeneratesBelow gen)
    {paren : ℕ} :
    ∀ {nts : List NTermId} {tree : Tree G} {remainingLen totalSize : ℕ} {out : ℕ × Tree G} {r r' : R},
      tree.Aligned →
      generateChildren withSeed ctx rounds gen paren nts tree remainingLen totalSize r = .ok (out, r') →
        ∃ count, out.1 = totalSize + count ∧ Grown paren nts tree out.2 count
  | [], tree, remainingLen, totalSize, out, r, r', _, h => by
    cases h
    exact ⟨0, rfl, [], [], [], .nil, by simp [grow], rfl⟩
  | nt :: nts, tree, remainingLen, totalSize, out, r, r', haligned, h => by
    simp only [generateChildren, Drawing.bind_eq_ok, ofResult_eq_ok] at h
    obtain ⟨share, r₁, -, min, r₂, -, cur, r₃, -, rid, r₄, hrid, node, r₅, hnode, _, r₆, -, _, r₇, -,
      childLen, r₈, -, below, r₉, hbelow, sizes, r₁₀, ⟨hsizes, -⟩, parents, r₁₁, ⟨hparents, -⟩, _, r₁₂, -,
      _, r₁₃, -, more, r₁₄, -, rest, r₁₅, -, total, r₁₆, ⟨htotal, -⟩, hrest⟩ := h
    have hid := ruleOrCustom_id hnode
    have hnonterm : node.nonterm = nt := by
      rw [RuleIdOrCustom.nonterm, hid]
      exact (getRandomRuleForNt_fits hfiled hrid).1
    obtain ⟨count, hcount, hgrown⟩ := hgen _ _ _ _ _ _ (haligned.push node) hbelow
    have hgrown := grown_below hid hgrown
    rw [hcount] at hsizes
    obtain ⟨haligned', hcons⟩ := grown_child nts haligned hnonterm hgrown hsizes hparents
    obtain ⟨count', hcount', hgrown'⟩ := generateChildren_grown hfiled hgen haligned' hrest
    have hsum : total = totalSize + below.1 := by
      unfold checkedAdd at htotal
      split at htotal
      · cases htotal
        rfl
      · cases htotal
    exact ⟨1 + count + count', by omega, hcons hgrown'⟩

theorem generate_grown (hfiled : ctx.Filed) : ∀ n : ℕ,
    GeneratesBelow (Rule.generate withSeed ctx rounds n : Rule → Tree G → ℕ → Drawing R Panic (ℕ × Tree G))
  | 0 => fun _ _ _ _ _ _ _ h => (throw_eq_ok h).elim
  | n + 1 => by
    intro rule tree len out r r' haligned h
    simp only [Rule.generate, Drawing.bind_eq_ok, ofResult_eq_ok] at h
    obtain ⟨needed, r₁, -, _, r₂, -, remaining, r₃, -, paren, r₄, ⟨hparen, -⟩, hchildren⟩ := h
    unfold Regex.checkedSub at hparen
    split at hparen
    · cases hparen
      exact generateChildren_grown hfiled (generate_grown hfiled n) haligned hchildren
    · cases hparen

/-- A tree that is generated is a derivation from the nonterminal, with the sizes and parents of its
    nodes. -/
theorem generateFromNt_valid (hfiled : ctx.Filed) {start : NTermId} {len : ℕ}
    (h : generateFromNt withSeed ctx rounds start len r = .ok (tree, r')) : tree.Valid start := by
  obtain ⟨rid, r₁, hrid, h⟩ := Drawing.bind_eq_ok.mp h
  obtain ⟨maxLen, r₂, -, h⟩ := Drawing.bind_eq_ok.mp h
  obtain ⟨node, r₃, hnode, h⟩ := Drawing.bind_eq_ok.mp h
  have hid := ruleOrCustom_id hnode
  have hnonterm : node.nonterm = start := by
    rw [RuleIdOrCustom.nonterm, hid]
    exact (getRandomRuleForNt_fits hfiled hrid).1
  have hnonterms : (G.getRule rid).nonterms = node.nonterms := by rw [RuleIdOrCustom.nonterms, hid]
  -- a node with terms below it, once its size is entered
  have hroot : ∀ {below : Tree G} {count : ℕ} {sizes : List ℕ},
      Grown 0 node.nonterms ⟨[node], [0], [0]⟩ below count →
      setAt below.sizes 0 below.rules.length = .ok sizes →
      Tree.Valid ⟨below.rules, sizes, below.paren⟩ start := by
    rintro below count sizes ⟨w, z, q, hnodes, rfl, -⟩ hsizes
    have hset : sizes = (w.length + 1) :: z := by
      simpa [grow, setAt, eq_comm] using hsizes
    have hvalid : Nodes G.nodes 0 0 [node.nonterm] (node :: (w ++ [])) ((w.length + 1) :: (z ++ []))
        (0 :: (q ++ [])) := Nodes.cons hnodes .nil
    rw [← hnonterm, hset]
    simpa [Tree.Valid, grow] using hvalid
  have hgenerated : ∀ {rule : Rule}, rule = G.getRule rid → ∀ {out : ℕ × Tree G} {r r' : R},
      rule.generate withSeed ctx rounds rounds ⟨[node], [0], [0]⟩ maxLen r = .ok (out, r') →
        ∃ count, Grown 0 node.nonterms ⟨[node], [0], [0]⟩ out.2 count := by
    rintro rule rfl out r r' hok
    obtain ⟨count, -, hgrown⟩ := generate_grown hfiled rounds _ _ _ _ _ _ ⟨rfl, rfl⟩ hok
    rw [hnonterms] at hgrown
    exact ⟨count, hgrown⟩
  cases hrule : G.getRule rid with
  | regExp nonterm hir =>
    simp only [hrule] at h
    cases h
    rw [hrule] at hnonterms
    exact hroot ⟨[], [], [], hnonterms ▸ .nil, rfl, rfl⟩ rfl
  | plain nonterm nonterms | script nonterm nonterms =>
    simp only [hrule] at h
    obtain ⟨out, r₄, hok, h⟩ := Drawing.bind_eq_ok.mp h
    obtain ⟨sizes, r₅, hsizes, hpure⟩ := Drawing.bind_eq_ok.mp h
    cases hpure
    obtain ⟨count, hgrown⟩ := hgenerated hrule.symm hok
    exact hroot hgrown (ofResult_eq_ok.mp hsizes).1

end

end Bofuzz.Nautilus
