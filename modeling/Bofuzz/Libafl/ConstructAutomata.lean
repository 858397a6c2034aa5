import Bofuzz.Libafl.Gramatron
import Mathlib.Data.List.Dedup
import Mathlib.Data.List.Sort

/-! From a grammar in Greibach normal form to an automaton (`utils/gramatron/construct_automata`).

    A state of the automaton stands for the stack of nonterminals that are still to be derived. The
    worklist holds the states whose rules have to be followed; a stack that was seen before leads
    back to its state, and stacks are compared after sorting. So a state also stands for stacks that
    are permutations of its own. States with a stack that has no rule are final like the one whose
    stack is empty, and without a limit the hash order picks one of them. Where merged stacks lead
    to the stack of the final state with the same words, the automaton spells the words that lead
    there. -/

namespace Bofuzz.ConstructAutomata
open Result Gramatron List Nat Relation

variable {N : Type}

/-- A rule, as `tokenize` takes it apart: a terminal and the nonterminals behind it. -/
structure Rule (N : Type) where
  terminal : String
  ss : List N

structure Grammar (N : Type) where
  start : N
  rules : N → Option (List (Rule N))

structure Element (N : Type) where
  state : ℕ
  items : List N

structure Transition where
  source : ℕ
  dest : ℕ
  terminal : String
  stackLen : ℕ
  deriving DecidableEq

inductive Failure where
  /-- `unwrap` of rules that are not there. -/
  | noRules
  /-- `assert!(initial.len() == 1)`. -/
  | initial
  /-- `assert!(culled_finals.len() == 1)`. -/
  | culledFinals
  /-- `unwrap` of a final state that is not there. -/
  | noFinal
  /-- The worklist has not become empty yet. -/
  | unfinished
  deriving DecidableEq

/-! ### The construction -/

/-- The variables of `main`. Entry `i` of `q` and `s` belongs to state `i + 1`. -/
structure Build (N : Type) where
  pda : List Transition := []
  q : List (List N) := []
  s : List (List N) := []
  stateCount : ℕ := 1
  worklist : List (Element N)

variable (b : Build N)

/-- `state_stacks.q.get(state.wrapping_sub(1))`, which finds nothing for state 0. -/
def Build.stateStack : ℕ → List N
  | 0 => []
  | i + 1 => b.q[i]?.getD []

section
variable [LinearOrder N]

/-- `sort_unstable`. -/
def sortStack (stack : List N) : List N := stack.insertionSort (· ≤ ·)

/-- One round of `'rules_loop`. -/
def addRule (stackLimit state : ℕ) (b : Build N) (rule : Rule N) : Build N :=
  let dest := b.stateCount
  let stateStack := rule.ss ++ (b.stateStack state).tail
  let sorted := sortStack stateStack
  match b.s.findIdx? (· = sorted) with
  | some found =>
    { b with pda := b.pda ++ [⟨state, found + 1, rule.terminal, stateStack.length⟩] }
  | none =>
    if 0 < stackLimit ∧ stackLimit < stateStack.length then b
    else
      { pda := b.pda ++ [⟨state, dest, rule.terminal, stateStack.length⟩]
        q := b.q ++ [stateStack]
        s := b.s ++ [sorted]
        stateCount := b.stateCount + 1
        worklist := b.worklist ++ [⟨dest, stateStack⟩] }

def prepareTransitions (G : Grammar N) (stackLimit : ℕ) (element : Element N) (b : Build N) :
    Except Failure (Build N) :=
  match element.items with
  | [] => .ok b
  | nonterminal :: _ =>
    match G.rules nonterminal with
    | none => .error .noRules
    | some rules => .ok (rules.foldl (addRule stackLimit element.state) b)

/-- The loop over the worklist, with a bound on its rounds. -/
def expand (G : Grammar N) (stackLimit : ℕ) : ℕ → Build N → Except Failure (Build N)
  | 0, b => if b.worklist.isEmpty then .ok b else .error .unfinished
  | n + 1, b =>
    match b.worklist with
    | [] => .ok b
    | element :: rest => do
      expand G stackLimit n (← prepareTransitions G stackLimit element { b with worklist := rest })

end

/-! ### The automaton -/

/-- The order in which the elements of a hash set come. -/
structure HashOrder where
  order : List ℕ → List ℕ
  perm : ∀ xs, (order xs).Perm xs

def sources (pda : List Transition) : List ℕ := (pda.map Transition.source).dedup

def dests (pda : List Transition) : List ℕ := (pda.map Transition.dest).dedup

/-- `memoized.resize(state + 1, vec![])` if need be, and then `memoized[state].push(..)`. -/
def memoize (memoized : List (List Trigger)) (t : Transition) : List (List Trigger) :=
  (memoized ++ List.replicate (t.source + 1 - memoized.length) []).modify t.source
    fun triggers => triggers ++ [(⟨t.dest, t.terminal⟩ : Trigger)]

/-- `postprocess`. With a stack limit, transitions into final states that still have a stack are
    left out, and the others are taken once for every final state. -/
def postprocess (hash : HashOrder) (pda : List Transition) (stackLimit : ℕ) :
    Except Failure Automaton := do
  let finals := hash.order ((dests pda).filter (· ∉ sources pda))
  let initial := hash.order ((sources pda).filter (· ∉ dests pda))
  match initial with
  | [init] =>
    if 0 < stackLimit then
      let unexpanded (final : ℕ) (t : Transition) : Bool := t.dest = final ∧ 0 < t.stackLen
      let blocklist := finals.filter fun final => pda.any (unexpanded final)
      let culledPda := finals.flatMap fun final => pda.filter fun t => !unexpanded final t
      match finals.filter (· ∉ blocklist) with
      | [final] =>
        return { initState := init, finalState := final
                 pda := (culledPda.filter (·.dest ∉ blocklist)).foldl memoize [] }
      | _ => throw .culledFinals
    else
      match finals with
      | final :: _ => return { initState := init, finalState := final, pda := pda.foldl memoize [] }
      | [] => throw .noFinal
  | _ => throw .initial

/-- `main`, from the grammar to the automaton. -/
def constructAutomata [LinearOrder N] (hash : HashOrder) (G : Grammar N) (stackLimit rounds : ℕ) :
    Except Failure Automaton := do
  let b ← expand G stackLimit rounds { worklist := [⟨0, [G.start]⟩] }
  postprocess hash b.pda stackLimit

/-! ### Languages -/

/-- The rules of a nonterminal. -/
def Grammar.rulesOf (G : Grammar N) (n : N) : List (Rule N) := (G.rules n).getD []

/-- A step of a leftmost derivation: the first nonterminal is replaced, and the terminals in front
    of it are complete. -/
inductive Grammar.Leftmost (G : Grammar N) : List String × List N → List String × List N → Prop
  | replace {w : List String} {n : N} {rest : List N} {rule : Rule N} (h : rule ∈ G.rulesOf n) :
    G.Leftmost (w, n :: rest) (w ++ [rule.terminal], rule.ss ++ rest)

/-- The word has a leftmost derivation from the start symbol. -/
def Grammar.Generates (G : Grammar N) (word : List String) : Prop :=
  ReflTransGen G.Leftmost ([], [G.start]) (word, [])

/-- A leftmost derivation from the start symbol gets to the stack, in some order, with the word. -/
def Grammar.LeadsTo (G : Grammar N) (final : List N) (word : List String) : Prop :=
  ∃ stack, stack.Perm final ∧ ReflTransGen G.Leftmost ([], [G.start]) (word, stack)

/-- The words that lead from one stack to another, in some order. -/
def Grammar.DerivesTo (G : Grammar N) (final : List N) : List N → List String → Prop
  | stack, [] => stack.Perm final
  | [], _ :: _ => False
  | n :: rest, t :: w => ∃ rule ∈ G.rulesOf n, rule.terminal = t ∧ G.DerivesTo final (rule.ss ++ rest) w

/-- The stack is not over the limit; zero is no limit. -/
def Fits (limit : ℕ) (stack : List N) : Prop := ¬ (0 < limit ∧ limit < stack.length)

/-- A leftmost step to a stack that fits, for which another one may stand. -/
def Grammar.Within (G : Grammar N) (limit : ℕ) (rep : List N → List N)
    (stack stack' : List N) : Prop :=
  ∃ n rest, stack = n :: rest ∧
    ∃ rule ∈ G.rulesOf n, Fits limit (rule.ss ++ rest) ∧ stack' = rep (rule.ss ++ rest)

/-- The stack comes up from the start symbol. -/
def Grammar.Kept (G : Grammar N) (limit : ℕ) (rep : List N → List N) (stack : List N) : Prop :=
  ReflTransGen (G.Within limit rep) [G.start] stack

variable (A : Automaton)

/-- The triggers of a state. -/
def triggersOf (s : ℕ) : List Trigger := A.pda[s]?.getD []

/-- A path from the state to the final one spells the word. -/
def SpellsFrom : ℕ → List String → Prop
  | s, [] => s = A.finalState
  | s, t :: w => ∃ trigger ∈ triggersOf A s, trigger.term = t ∧ SpellsFrom trigger.dest w

/-- A path from the initial to the final state spells the word. -/
def Spells (word : List String) : Prop := SpellsFrom A A.initState word

instance SpellsFrom.decidable (A : Automaton) : (s : ℕ) → (w : List String) → Decidable (SpellsFrom A s w)
  | s, [] => inferInstanceAs (Decidable (s = A.finalState))
  | s, t :: w =>
    haveI : ∀ d, Decidable (SpellsFrom A d w) := fun d => SpellsFrom.decidable A d w
    inferInstanceAs (Decidable (∃ trigger ∈ triggersOf A s, trigger.term = t ∧ _))

instance DerivesTo.decidable [DecidableEq N] (G : Grammar N) (final : List N) :
    (stack : List N) → (w : List String) → Decidable (G.DerivesTo final stack w)
  | stack, [] => inferInstanceAs (Decidable (stack.Perm final))
  | [], _ :: _ => .isFalse fun h => h
  | n :: _, t :: w =>
    haveI : ∀ stack, Decidable (G.DerivesTo final stack w) := fun stack =>
      DerivesTo.decidable G final stack w
    inferInstanceAs (Decidable (∃ rule ∈ G.rulesOf n, rule.terminal = t ∧ _))

/-- Stacks that come up and are permutations of each other lead to `final` with the same words. -/
def Grammar.Separated (G : Grammar N) (final : List N) : Prop :=
  ∀ stack stack', G.Kept 0 id stack → G.Kept 0 id stack' → stack.Perm stack' →
    ∀ w, G.DerivesTo final stack w ↔ G.DerivesTo final stack' w

section
variable {G : Grammar N} {limit : ℕ} {final : List N}

theorem Grammar.Kept.step {n : N} {rest : List N} {rule : Rule N} (h : G.Kept limit id (n :: rest))
    (hrule : rule ∈ G.rulesOf n) (hfits : Fits limit (rule.ss ++ rest)) :
    G.Kept limit id (rule.ss ++ rest) :=
  h.tail ⟨n, rest, rfl, rule, hrule, hfits, rfl⟩

theorem Grammar.Kept.fits {stack : List N} (h : G.Kept limit id stack) : Fits limit stack := by
  rcases h.cases_tail with rfl | ⟨_, -, n, rest, -, rule, -, hfits, rfl⟩
  · simp only [Fits, length_singleton]
    omega
  · exact hfits

theorem leftmost_of_derivesTo : ∀ {w u : List String} {stack : List N}, G.DerivesTo final stack w →
    ∃ stack', stack'.Perm final ∧ ReflTransGen G.Leftmost (u, stack) (u ++ w, stack')
  | [], u, stack, h => ⟨stack, h, by rw [append_nil]⟩
  | _ :: _, _, [], h => h.elim
  | t :: w, u, n :: rest, ⟨rule, hrule, ht, hrest⟩ => by
    obtain ⟨stack', hperm, htail⟩ := leftmost_of_derivesTo (u := u ++ [t]) hrest
    rw [append_assoc, singleton_append] at htail
    subst ht
    exact ⟨stack', hperm, htail.head (.replace hrule)⟩

theorem derivesTo_of_leftmost {v : List String} {c : List String × List N} {stack : List N}
    (h : ReflTransGen G.Leftmost c (v, stack)) (hperm : stack.Perm final) :
    ∃ w, v = c.1 ++ w ∧ G.DerivesTo final c.2 w := by
  induction h using ReflTransGen.head_induction_on with
  | refl => exact ⟨[], (append_nil _).symm, hperm⟩
  | head hstep _ ih =>
    obtain ⟨w, rfl, hderives⟩ := ih
    cases hstep with
    | replace hrule => exact ⟨_ :: w, by simp, _, hrule, rfl, hderives⟩

theorem leadsTo_iff {word : List String} :
    G.LeadsTo final word ↔ G.DerivesTo final [G.start] word := by
  constructor
  · rintro ⟨stack, hperm, h⟩
    obtain ⟨w, hw, hderives⟩ := derivesTo_of_leftmost h hperm
    rwa [hw]
  · intro h
    exact leftmost_of_derivesTo (u := []) h

theorem generates_iff {word : List String} : G.Generates word ↔ G.DerivesTo [] [G.start] word := by
  rw [← leadsTo_iff]
  simp [Grammar.LeadsTo, Grammar.Generates]

end

/-- What every element of the worklist keeps holds at the end. -/
theorem expand_induct [LinearOrder N] {G : Grammar N} {stackLimit : ℕ} {P : Build N → Prop}
    (hstep : ∀ {b b' : Build N} {element : Element N} {worklist : List (Element N)}, P b →
      b.worklist = element :: worklist →
      prepareTransitions G stackLimit element { b with worklist := worklist } = .ok b' → P b') :
    ∀ {rounds : ℕ} {b b' : Build N}, P b → expand G stackLimit rounds b = .ok b' → P b' ∧ b'.worklist = []
  | 0, b, b', hb, h => by
    unfold expand at h
    split at h
    · next hempty =>
      cases h
      exact ⟨hb, isEmpty_iff.mp hempty⟩
    · cases h
  | rounds + 1, b, b', hb, h => by
    unfold expand at h
    split at h
    · next hempty =>
      cases h
      exact ⟨hb, hempty⟩
    · next element worklist hwork =>
      obtain ⟨b₁, hprepare, hrest⟩ := bind_eq_ok.mp h
      exact expand_induct hstep (hstep hb hwork hprepare) hrest

/-! ### The invariant of the construction -/

section
variable {G : Grammar N}

/-- The stack that a state stands for. -/
def Build.stackAt (G : Grammar N) (b : Build N) : ℕ → List N
  | 0 => [G.start]
  | i + 1 => b.q[i]?.getD []

theorem stateStack_tail (state : ℕ) : (b.stateStack state).tail = (b.stackAt G state).tail := by
  cases state <;> rfl

/-- A transition that follows a rule: it leads to a permutation of the stack that the rule
    leaves. -/
def Follows (G : Grammar N) (b : Build N) (t : Transition) (n : N) (rest : List N)
    (rule : Rule N) : Prop :=
  b.stackAt G t.source = n :: rest ∧ rule ∈ G.rulesOf n ∧ t.terminal = rule.terminal ∧
    t.stackLen = (rule.ss ++ rest).length ∧ (b.stackAt G t.dest).Perm (rule.ss ++ rest)

/-- A rule of a state has its transition if the stack fits. -/
def Taken (G : Grammar N) (limit : ℕ) (b : Build N) (state : ℕ) (n : N) (rest : List N)
    (rule : Rule N) : Prop :=
  Fits limit (rule.ss ++ rest) → ∃ t ∈ b.pda, t.source = state ∧ Follows G b t n rest rule

def Done (G : Grammar N) (limit : ℕ) (b : Build N) (state : ℕ) : Prop :=
  ∀ n rest, b.stackAt G state = n :: rest → ∀ rule ∈ G.rulesOf n, Taken G limit b state n rest rule

/-- A transition from one state to another. -/
def Edge (pda : List Transition) (s s' : ℕ) : Prop := ∃ t ∈ pda, t.source = s ∧ t.dest = s'

/-- States keep their stacks, and transitions stay. -/
structure Grows (G : Grammar N) (b b' : Build N) : Prop where
  stack : ∀ state < b.stateCount, b'.stackAt G state = b.stackAt G state
  count : b.stateCount ≤ b'.stateCount
  pda : ∀ t ∈ b.pda, t ∈ b'.pda

variable {limit : ℕ} {current : ℕ → Prop} {b b' b'' : Build N} {state : ℕ} {n : N} {rest : List N} {rule : Rule N}

namespace Grows

theorem refl (b : Build N) : Grows G b b := ⟨fun _ _ => rfl, le_refl _, fun _ h => h⟩

theorem trans (h : Grows G b b') (h' : Grows G b' b'') : Grows G b b'' where
  stack s hs := (h'.stack s (lt_of_lt_of_le hs h.count)).trans (h.stack s hs)
  count := le_trans h.count h'.count
  pda t ht := h'.pda t (h.pda t ht)

theorem follows (h : Grows G b b') {t : Transition} (hsource : t.source < b.stateCount)
    (hdest : t.dest < b.stateCount) (hf : Follows G b t n rest rule) :
    Follows G b' t n rest rule := by
  obtain ⟨hstack, hrule, hterm, hlen, hperm⟩ := hf
  exact ⟨(h.stack _ hsource).trans hstack, hrule, hterm, hlen, (h.stack _ hdest).symm ▸ hperm⟩

theorem path (h : Grows G b b') {s s' : ℕ} (hpath : ReflTransGen (Edge b.pda) s s') :
    ReflTransGen (Edge b'.pda) s s' := by
  refine ReflTransGen.mono ?_ _ _ hpath
  rintro s s' ⟨t, ht, hedge⟩
  exact ⟨t, h.pda t ht, hedge⟩

end Grows

variable [LinearOrder N]

theorem sortStack_eq_iff {a b : List N} : sortStack a = sortStack b ↔ a.Perm b := by
  constructor
  · intro h
    have hb : (sortStack b).Perm b := perm_insertionSort _ b
    rw [← h] at hb
    exact (perm_insertionSort _ a).symm.trans hb
  · intro h
    exact List.Perm.eq_of_pairwise (fun _ _ _ _ => le_antisymm) (pairwise_insertionSort _ a)
      (pairwise_insertionSort _ b)
      ((perm_insertionSort _ a).trans (h.trans (perm_insertionSort _ b).symm))

/-- What holds throughout the construction, apart from the states in `current` that are being
    expanded. -/
structure Inv (G : Grammar N) (limit : ℕ) (current : ℕ → Prop) (b : Build N) : Prop where
  count : b.stateCount = b.q.length + 1
  sorted : b.s = b.q.map sortStack
  nodup : b.s.Nodup
  kept : ∀ state < b.stateCount, G.Kept limit id (b.stackAt G state)
  follows : ∀ t ∈ b.pda, t.source < b.stateCount ∧ t.dest < b.stateCount ∧
    ∃ n rest rule, Follows G b t n rest rule
  work : ∀ e ∈ b.worklist, e.state < b.stateCount ∧ e.items = b.stackAt G e.state
  covered : ∀ state < b.stateCount,
    current state ∨ (∃ e ∈ b.worklist, e.state = state) ∨ Done G limit b state
  rooted : ∀ state < b.stateCount, ReflTransGen (Edge b.pda) 0 state
  positive : ∀ t ∈ b.pda, 0 < t.dest

theorem Grows.taken (h : Grows G b b') (hinv : Inv G limit current b)
    (htaken : Taken G limit b state n rest rule) : Taken G limit b' state n rest rule := by
  intro hfits
  obtain ⟨t, ht, hsource, hf⟩ := htaken hfits
  obtain ⟨hs, hd, -⟩ := hinv.follows t ht
  exact ⟨t, h.pda t ht, hsource, h.follows hs hd hf⟩

/-- A transition is added, and states for the stacks in `new`. -/
def Build.link (t : Transition) (new : List (List N)) : Build N where
  pda := b.pda ++ [t]
  q := b.q ++ new
  s := b.s ++ new.map sortStack
  stateCount := b.stateCount + new.length
  worklist := b.worklist ++ new.map (⟨b.stateCount, ·⟩)

/-- A transition leads to a state that is there, or to a new one for a stack that fits. -/
def Target (limit : ℕ) (b : Build N) (dest : ℕ) (stack : List N) (new : List (List N)) : Prop :=
  0 < dest ∧ (new = [] ∧ dest < b.stateCount ∨
    (new = [stack] ∧ dest = b.stateCount) ∧ Fits limit stack ∧ sortStack stack ∉ b.s)

theorem grows_link (hinv : Inv G limit current b) (t : Transition) (new : List (List N)) :
    Grows G b (b.link t new) where
  stack s hs := by
    cases s with
    | zero => rfl
    | succ i =>
      have hi : i < b.q.length := by
        rw [hinv.count] at hs
        omega
      simp [Build.stackAt, Build.link, getElem?_append_left hi]
  count := le_add_right _ _
  pda _ ht := mem_append_left _ ht

theorem stackAt_link (hinv : Inv G limit current b) (t : Transition) (stack : List N) :
    (b.link t [stack]).stackAt G b.stateCount = stack := by
  rw [hinv.count]
  simp [Build.stackAt, Build.link]

/-- What a rule does: it leads to a state with a permutation of the stack, or the stack does not fit
    and it is dropped. -/
theorem addRule_cases (rule : Rule N) (hinv : Inv G limit current b)
    (hstack : b.stackAt G state = n :: rest) :
    (¬ Fits limit (rule.ss ++ rest) ∧ addRule limit state b rule = b) ∨
    ∃ t new, t.source = state ∧ t.terminal = rule.terminal ∧ t.stackLen = (rule.ss ++ rest).length ∧
      Target limit b t.dest (rule.ss ++ rest) new ∧ addRule limit state b rule = b.link t new ∧
      ((b.link t new).stackAt G t.dest).Perm (rule.ss ++ rest) := by
  have htail : (b.stateStack state).tail = rest := by rw [stateStack_tail (G := G), hstack, tail_cons]
  cases hfind : b.s.findIdx? (· = sortStack (rule.ss ++ rest)) with
  | some found =>
    obtain ⟨hlt, heq, -⟩ := findIdx?_eq_some_iff_getElem.mp hfind
    have hq : found < b.q.length := by simpa [hinv.sorted] using hlt
    have hfound : found + 1 < b.stateCount := by
      rw [hinv.count]
      omega
    refine .inr ⟨⟨state, found + 1, _, _⟩, [], rfl, rfl, rfl, ⟨succ_pos _, .inl ⟨rfl, hfound⟩⟩,
      by simp [addRule, htail, hfind, Build.link], ?_⟩
    rw [(grows_link hinv ..).stack _ hfound, ← sortStack_eq_iff]
    simpa [Build.stackAt, hq, hinv.sorted] using heq
  | none =>
    have hadd : addRule limit state b rule =
        if 0 < limit ∧ limit < (rule.ss ++ rest).length then b
        else b.link ⟨state, b.stateCount, rule.terminal, (rule.ss ++ rest).length⟩ [rule.ss ++ rest] := by
      simp only [addRule, htail, hfind]
      rfl
    rw [hadd]
    split_ifs with hover
    · exact .inl ⟨not_not.mpr hover, rfl⟩
    refine .inr ⟨_, _, rfl, rfl, rfl, ⟨?_, .inr ⟨⟨rfl, rfl⟩, hover, fun hmem => ?_⟩⟩, rfl, ?_⟩
    · rw [hinv.count]
      exact succ_pos _
    · simpa using findIdx?_eq_none_iff.mp hfind _ hmem
    · rw [stackAt_link hinv]

/-- A transition of the state is added, and its target unless it was there. -/
theorem inv_link {t : Transition} {new : List (List N)} (hinv : Inv G limit current b)
    (hstate : t.source < b.stateCount)
    (hkept : Fits limit (rule.ss ++ rest) → G.Kept limit id (rule.ss ++ rest))
    (htarget : Target limit b t.dest (rule.ss ++ rest) new)
    (hfollows : Follows G (b.link t new) t n rest rule) : Inv G limit current (b.link t new) := by
  have hgrows := grows_link hinv t new
  have hat := stackAt_link hinv t (rule.ss ++ rest)
  obtain ⟨state, dest, terminal, len⟩ := t
  obtain ⟨hpos, hnew⟩ := htarget
  have hdest : dest < b.stateCount + new.length := by
    rcases hnew with ⟨rfl, hlt⟩ | ⟨⟨rfl, rfl⟩, -⟩
    · exact hlt
    · exact lt_succ_self _
  -- a state is an old one, or the target, which is new
  have hstates : ∀ s < b.stateCount + new.length, s < b.stateCount ∨
      s = dest ∧ new = [rule.ss ++ rest] ∧ dest = b.stateCount ∧ Fits limit (rule.ss ++ rest) := by
    intro s hs
    rcases hnew with ⟨rfl, -⟩ | ⟨⟨rfl, rfl⟩, hfits, -⟩
    · exact .inl hs
    · exact (Nat.lt_succ_iff_lt_or_eq.mp hs).imp_right fun heq => ⟨heq, rfl, rfl, hfits⟩
  constructor
  case count => simp [Build.link, hinv.count, Nat.add_right_comm]
  case sorted => simp [Build.link, hinv.sorted]
  case nodup =>
    rcases hnew with ⟨rfl, -⟩ | ⟨⟨rfl, -⟩, -, hnot⟩
    · simpa [Build.link] using hinv.nodup
    · exact nodup_append'.mpr ⟨hinv.nodup, nodup_singleton _, disjoint_singleton.mpr hnot⟩
  case kept =>
    intro s hs
    rcases hstates s hs with hold | ⟨rfl, rfl, rfl, hfits⟩
    · rw [hgrows.stack s hold]
      exact hinv.kept s hold
    · rw [hat]
      exact hkept hfits
  case follows =>
    refine forall_mem_append.mpr ⟨fun t ht => ?_, forall_mem_singleton.mpr
      ⟨lt_of_lt_of_le hstate hgrows.count, hdest, n, rest, rule, hfollows⟩⟩
    obtain ⟨hs, hd, m, r, ru, hf⟩ := hinv.follows t ht
    exact ⟨lt_of_lt_of_le hs hgrows.count, lt_of_lt_of_le hd hgrows.count, m, r, ru,
      hgrows.follows hs hd hf⟩
  case work =>
    refine forall_mem_append.mpr ⟨fun e he => ?_, forall_mem_map.mpr fun stack hmem => ?_⟩
    · obtain ⟨hlt, hitems⟩ := hinv.work e he
      exact ⟨lt_of_lt_of_le hlt hgrows.count, hitems.trans (hgrows.stack _ hlt).symm⟩
    · rcases hnew with ⟨rfl, -⟩ | ⟨⟨rfl, rfl⟩, -⟩
      · cases hmem
      · exact ⟨hdest, (mem_singleton.mp hmem).trans hat.symm⟩
  case covered =>
    intro s hs
    rcases hstates s hs with hold | ⟨rfl, rfl, rfl, -⟩
    · rcases hinv.covered s hold with hcur | ⟨e, he, hes⟩ | hdone
      · exact .inl hcur
      · exact .inr (.inl ⟨e, mem_append_left _ he, hes⟩)
      · exact .inr (.inr fun n rest hstack rule hrule => hgrows.taken hinv
          (hdone n rest ((hgrows.stack s hold).symm.trans hstack) rule hrule))
    · exact .inr (.inl ⟨_, mem_concat_self, rfl⟩)
  case rooted =>
    intro s hs
    rcases hstates s hs with hold | ⟨rfl, -⟩
    · exact hgrows.path (hinv.rooted s hold)
    · exact (hgrows.path (hinv.rooted state hstate)).tail ⟨_, mem_concat_self, rfl, rfl⟩
  case positive => exact forall_mem_append.mpr ⟨hinv.positive, forall_mem_singleton.mpr hpos⟩

/-- A rule of a state: the invariant is kept, and the rule has its transition if the stack fits. -/
theorem inv_addRule (hinv : Inv G limit current b) (hstate : state < b.stateCount)
    (hstack : b.stackAt G state = n :: rest) (hrule : rule ∈ G.rulesOf n) :
    Inv G limit current (addRule limit state b rule) ∧ Grows G b (addRule limit state b rule) ∧
      Taken G limit (addRule limit state b rule) state n rest rule := by
  rcases addRule_cases rule hinv hstack with
    ⟨hover, heq⟩ | ⟨t, new, rfl, hterm, hlen, htarget, heq, hperm⟩
  · rw [heq]
    exact ⟨hinv, .refl b, fun hfits => absurd hfits hover⟩
  rw [heq]
  have hgrows := grows_link hinv t new
  have hfollows : Follows G (b.link t new) t n rest rule :=
    ⟨(hgrows.stack _ hstate).trans hstack, hrule, hterm, hlen, hperm⟩
  have hkept := (hstack ▸ hinv.kept _ hstate).step hrule
  exact ⟨inv_link hinv hstate hkept htarget hfollows, hgrows, fun _ => ⟨_, mem_concat_self, rfl, hfollows⟩⟩

theorem inv_addRules : ∀ (rules : List (Rule N)) (b : Build N), Inv G limit current b →
    state < b.stateCount → b.stackAt G state = n :: rest → (∀ rule ∈ rules, rule ∈ G.rulesOf n) →
    Inv G limit current (rules.foldl (addRule limit state) b) ∧
      Grows G b (rules.foldl (addRule limit state) b) ∧
      ∀ rule ∈ rules, Taken G limit (rules.foldl (addRule limit state) b) state n rest rule
  | [], b, hinv, _, _, _ => ⟨hinv, .refl b, fun _ h => absurd h not_mem_nil⟩
  | rule :: rules, b, hinv, hstate, hstack, hrules => by
    rw [forall_mem_cons] at hrules
    obtain ⟨hinv₁, hgrows₁, hfirst⟩ := inv_addRule hinv hstate hstack hrules.1
    have hstack₁ := (hgrows₁.stack state hstate).trans hstack
    obtain ⟨hinv₂, hgrows₂, hall⟩ := inv_addRules rules _ hinv₁
      (lt_of_lt_of_le hstate hgrows₁.count) hstack₁ hrules.2
    exact ⟨hinv₂, hgrows₁.trans hgrows₂, forall_mem_cons.mpr ⟨hgrows₂.taken hinv₁ hfirst, hall⟩⟩

/-- A state that is done need not be excepted any more. -/
theorem Inv.finish (hinv : Inv G limit (· = state) b) (hdone : Done G limit b state) :
    Inv G limit (fun _ => False) b :=
  { hinv with
    covered := by
      intro s hs
      rcases hinv.covered s hs with rfl | hrest
      · exact .inr (.inr hdone)
      · exact .inr hrest }

section
variable {element : Element N} {worklist : List (Element N)} (hinv : Inv G limit (fun _ => False) b)
  (hwork : b.worklist = element :: worklist)
include hinv hwork

theorem Inv.pop : Inv G limit (· = element.state) { b with worklist := worklist } :=
  { hinv with
    work := fun e he => hinv.work e (hwork ▸ mem_cons_of_mem _ he)
    covered := by
      intro s hs
      rcases hinv.covered s hs with hcur | ⟨e, he, hes⟩ | hdone
      · exact hcur.elim
      · rw [hwork] at he
        rcases mem_cons.mp he with rfl | hin
        · exact .inl hes.symm
        · exact .inr (.inl ⟨e, hin, hes⟩)
      · exact .inr (.inr hdone) }

theorem inv_prepareTransitions
    (h : prepareTransitions G limit element { b with worklist := worklist } = .ok b') :
    Inv G limit (fun _ => False) b' := by
  obtain ⟨hlt, hitems⟩ := hinv.work element (hwork ▸ mem_cons_self)
  unfold prepareTransitions at h
  split at h
  · next hnil =>
    cases h
    refine (hinv.pop hwork).finish ?_
    intro n rest hstack
    rw [hnil] at hitems
    exact absurd (hitems.trans hstack) (cons_ne_nil _ _).symm
  · next nonterminal rest hcons =>
    rw [hcons] at hitems
    cases hrules : G.rules nonterminal with
    | none =>
      rw [hrules] at h
      cases h
    | some rules =>
      rw [hrules] at h
      cases h
      have hof : G.rulesOf nonterminal = rules := by simp [Grammar.rulesOf, hrules]
      obtain ⟨hinv', hgrows, hall⟩ := inv_addRules rules _ (hinv.pop hwork) hlt hitems.symm
        (fun rule hrule => hof.symm ▸ hrule)
      refine hinv'.finish ?_
      intro n rest' hstack rule hrule hfits
      rw [hgrows.stack element.state hlt] at hstack
      cases (hitems.trans hstack : nonterminal :: rest = n :: rest')
      exact hall rule (hof ▸ hrule) hfits

end

theorem inv_init : Inv G limit (fun _ => False) { worklist := [⟨0, [G.start]⟩] } where
  count := rfl
  sorted := rfl
  nodup := nodup_nil
  kept := by
    intro s hs
    cases lt_one_iff.mp hs
    exact .refl
  follows _ ht := absurd ht not_mem_nil
  work := by
    intro e he
    cases mem_singleton.mp he
    exact ⟨one_pos, rfl⟩
  covered := by
    intro s hs
    cases lt_one_iff.mp hs
    exact .inr (.inl ⟨_, mem_singleton.mpr rfl, rfl⟩)
  rooted := by
    intro s hs
    cases lt_one_iff.mp hs
    exact .refl
  positive _ ht := absurd ht not_mem_nil

end

/-! ### What the automaton keeps of the construction -/

section
variable {A : Automaton} {s : ℕ}

theorem mem_memoize {memoized : List (List Trigger)} {t : Transition} {trigger : Trigger} :
    trigger ∈ (memoize memoized t)[s]?.getD [] ↔
      trigger ∈ memoized[s]?.getD [] ∨ (t.source = s ∧ trigger = ⟨t.dest, t.terminal⟩) := by
  have hpad : ∀ i : ℕ, (memoized ++ List.replicate (t.source + 1 - memoized.length) [])[i]?.getD [] =
      memoized[i]?.getD [] := by
    intro i
    rcases lt_or_ge i memoized.length with hi | hi
    · rw [getElem?_append_left hi]
    · rw [getElem?_append_right hi, getElem?_eq_none hi, getElem?_replicate]
      split <;> rfl
  have hlen : t.source < (memoized ++ List.replicate (t.source + 1 - memoized.length) []).length := by
    simp only [length_append, length_replicate]
    omega
  rw [memoize, getElem?_modify]
  by_cases hs : t.source = s
  · subst hs
    rw [← hpad t.source]
    simp [getElem?_eq_getElem hlen]
  · simp [hs, hpad]

variable {pda : List Transition}

theorem mem_foldl_memoize {trigger : Trigger} : trigger ∈ (pda.foldl memoize [])[s]?.getD [] ↔
      ∃ t ∈ pda, t.source = s ∧ trigger = ⟨t.dest, t.terminal⟩ := by
  have hfold := Run.foldl_iff (P := fun memoized => trigger ∈ memoized[s]?.getD [])
    (fun _ t => mem_memoize (t := t)) pda []
  simpa using hfold

theorem mem_sources : s ∈ sources pda ↔ ∃ t ∈ pda, t.source = s := by
  rw [sources, mem_dedup, mem_map]

theorem mem_dests : s ∈ dests pda ↔ ∃ t ∈ pda, t.dest = s := by
  rw [dests, mem_dedup, mem_map]

variable {hash : HashOrder}

theorem HashOrder.mem_order {xs ys : List ℕ} {x : ℕ} :
    x ∈ hash.order (xs.filter (· ∉ ys)) ↔ x ∈ xs ∧ x ∉ ys := by
  rw [(hash.perm _).mem_iff, mem_filter, decide_eq_true_eq]

/-- A state without transitions that some transition enters with a stack. -/
def Blocked (pda : List Transition) (s : ℕ) : Prop :=
  s ∉ sources pda ∧ ∃ t ∈ pda, t.dest = s ∧ 0 < t.stackLen

theorem mem_blocked {s : ℕ} : s ∈ (hash.order ((dests pda).filter (· ∉ sources pda))).filter
    (fun final => pda.any fun t => t.dest = final ∧ 0 < t.stackLen) ↔ Blocked pda s := by
  simp only [mem_filter, HashOrder.mem_order, Blocked, any_eq_true, decide_eq_true_eq, mem_dests]
  constructor
  · rintro ⟨⟨-, hs⟩, ht⟩
    exact ⟨hs, ht⟩
  · rintro ⟨hs, t, ht, hd, hlen⟩
    exact ⟨⟨⟨t, ht, hd⟩, hs⟩, t, ht, hd, hlen⟩

/-- The automaton starts in a state that no transition leads to and ends in one that none leaves.
    With a stack limit, it has no transitions into blocked states, and its final state is the only
    one that is not blocked. -/
theorem postprocess_eq_ok {stackLimit : ℕ} (h : postprocess hash pda stackLimit = .ok A) :
    (A.initState ∈ sources pda ∧ A.initState ∉ dests pda) ∧
    (A.finalState ∈ dests pda ∧ A.finalState ∉ sources pda) ∧
    (0 < stackLimit → ∀ s, s ∈ dests pda ∧ s ∉ sources pda ∧ ¬ Blocked pda s ↔ s = A.finalState) ∧
    ∀ s trigger, trigger ∈ triggersOf A s ↔ ∃ t ∈ pda, t.source = s ∧ trigger = ⟨t.dest, t.terminal⟩ ∧
      (0 < stackLimit → ¬ Blocked pda t.dest) := by
  unfold postprocess at h
  simp only at h
  split at h
  · next init hinit =>
    have hin : init ∈ hash.order ((sources pda).filter (· ∉ dests pda)) := hinit ▸ mem_cons_self
    rw [HashOrder.mem_order] at hin
    split at h
    · next hlimit =>
      split at h
      · next final hfinals =>
        cases h
        have hblocked := @mem_blocked pda hash
        have hfinal : ∀ s, s ∈ dests pda ∧ s ∉ sources pda ∧ ¬ Blocked pda s ↔ s = final := by
          intro s
          rw [← mem_singleton, ← hfinals, mem_filter, decide_eq_true_eq, hblocked,
            HashOrder.mem_order, and_assoc]
        obtain ⟨hdest, hsource, hnot⟩ := (hfinal final).mpr rfl
        refine ⟨hin, ⟨hdest, hsource⟩, fun _ => hfinal, fun s trigger => ?_⟩
        rw [triggersOf, mem_foldl_memoize]
        simp only [mem_filter, mem_flatMap, decide_eq_true_eq, hblocked]
        constructor
        · rintro ⟨t, ⟨⟨_, -, ht, -⟩, hkept⟩, hs, rfl⟩
          exact ⟨t, ht, hs, rfl, fun _ => hkept⟩
        · rintro ⟨t, ht, hs, rfl, hkept⟩
          refine ⟨t, ⟨⟨final, HashOrder.mem_order.mpr ⟨hdest, hsource⟩, ht, ?_⟩, hkept hlimit⟩, hs, rfl⟩
          simp only [Bool.not_eq_true', decide_eq_false_iff_not]
          rintro ⟨rfl, hlen⟩
          exact hnot ⟨hsource, t, ht, rfl, hlen⟩
      · cases h
    · next hlimit =>
      split at h
      · next final rest hfinals =>
        cases h
        have hfin : final ∈ hash.order ((dests pda).filter (· ∉ sources pda)) := hfinals ▸ mem_cons_self
        rw [HashOrder.mem_order] at hfin
        refine ⟨hin, hfin, fun hpos => absurd hpos hlimit, fun s trigger => ?_⟩
        simpa [triggersOf, hlimit] using mem_foldl_memoize
      · cases h
  · cases h

end

/-! ### The language of the automaton -/

/-- The stack that stands for its permutations, the one that came up first. -/
def Build.rep [LinearOrder N] (stack : List N) : List N :=
  (b.q.find? (·.Perm stack)).getD stack

section
variable [LinearOrder N] {G : Grammar N} {limit : ℕ} {A : Automaton} {b : Build N}

/-- What the loop over the worklist and `postprocess` make together. -/
structure Built (G : Grammar N) (limit : ℕ) (b : Build N) (A : Automaton) : Prop where
  inv : Inv G limit (fun _ => False) b
  done : ∀ state < b.stateCount, Done G limit b state
  init : A.initState = 0
  final : 0 < A.finalState ∧ A.finalState < b.stateCount

theorem built_of_ok {hash : HashOrder} {rounds : ℕ}
    (hexpand : expand G limit rounds { worklist := [⟨0, [G.start]⟩] } = .ok b)
    (hpost : postprocess hash b.pda limit = .ok A) : Built G limit b A := by
  obtain ⟨hinv, hempty⟩ := expand_induct inv_prepareTransitions inv_init hexpand
  obtain ⟨⟨hsource, hnodest⟩, ⟨hdest, -⟩, -⟩ := postprocess_eq_ok hpost
  refine ⟨hinv, fun s hs => ?_, ?_, ?_⟩
  · rcases hinv.covered s hs with hcur | ⟨e, he, -⟩ | hdone
    · exact hcur.elim
    · rw [hempty] at he
      cases he
    · exact hdone
  · -- only state 0 is entered by no transition
    obtain ⟨t, ht, hts⟩ := mem_sources.mp hsource
    rcases (hinv.rooted _ (hts ▸ (hinv.follows t ht).1)).cases_tail with hzero | ⟨_, -, t', ht', -, hd⟩
    · exact hzero
    · exact absurd (mem_dests.mpr ⟨t', ht', hd⟩) hnodest
  · obtain ⟨t, ht, htd⟩ := mem_dests.mp hdest
    exact htd ▸ ⟨hinv.positive t ht, (hinv.follows t ht).2.1⟩

/-- No two states stand for permutations of one stack, apart from the initial one. -/
theorem Inv.eq_of_perm {current : ℕ → Prop} (h : Inv G limit current b) {s s' : ℕ} (hpos : 0 < s)
    (hs : s < b.stateCount) (hpos' : 0 < s') (hs' : s' < b.stateCount)
    (hperm : (b.stackAt G s).Perm (b.stackAt G s')) : s = s' := by
  obtain ⟨i, rfl⟩ := Nat.exists_eq_succ_of_ne_zero hpos.ne'
  obtain ⟨j, rfl⟩ := Nat.exists_eq_succ_of_ne_zero hpos'.ne'
  have hcount := h.count
  have hi : i < b.q.length := by omega
  have hj : j < b.q.length := by omega
  have hlen : i < b.s.length := by rwa [h.sorted, length_map]
  have heq : b.s[i]? = b.s[j]? := by
    rw [← sortStack_eq_iff] at hperm
    simpa [h.sorted, hi, hj, Build.stackAt] using hperm
  rw [(List.getElem?_inj hlen h.nodup).mp heq]

/-- A stack that no transition leaves is empty, or its first nonterminal has no rules. -/
theorem Built.stuck (h : Built G 0 b A) {s : ℕ} (hs : s < b.stateCount)
    (hnosource : s ∉ sources b.pda) :
    b.stackAt G s = [] ∨ ∃ n rest, b.stackAt G s = n :: rest ∧ G.rulesOf n = [] := by
  cases hstack : b.stackAt G s with
  | nil => exact .inl rfl
  | cons n rest =>
    refine .inr ⟨n, rest, rfl, eq_nil_iff_forall_not_mem.mpr fun rule hrule => ?_⟩
    obtain ⟨t, ht, hts, -⟩ := h.done s hs n rest hstack rule hrule fun hover => absurd hover.1 (lt_irrefl 0)
    exact hnosource (mem_sources.mpr ⟨t, ht, hts⟩)

section
variable {hash : HashOrder} (h : Built G 0 b A) (hpost : postprocess hash b.pda 0 = .ok A)
include h hpost

theorem Built.eq_final_iff {state : ℕ} (hstate : state < b.stateCount) :
    state = A.finalState ↔ (b.stackAt G state).Perm (b.stackAt G A.finalState) := by
  obtain ⟨⟨hsource, -⟩, ⟨-, hnosource⟩, -⟩ := postprocess_eq_ok hpost
  refine ⟨fun heq => heq ▸ .refl _, fun hperm => ?_⟩
  rcases Nat.eq_zero_or_pos state with rfl | hpos
  · -- the start symbol has a rule, and so another state with this stack is no final one
    have hfinal : b.stackAt G A.finalState = [G.start] := (singleton_perm.mp hperm).symm
    obtain ⟨t, ht, hts⟩ := mem_sources.mp hsource
    obtain ⟨-, -, n, rest, rule, hstack, hrule, -⟩ := h.inv.follows t ht
    rw [hts, h.init] at hstack
    cases (hstack : [G.start] = n :: rest)
    rcases h.stuck h.final.2 hnosource with hnil | ⟨n, rest, hcons, hnone⟩
    · rw [hfinal] at hnil
      cases hnil
    · cases hfinal.symm.trans hcons
      rw [hnone] at hrule
      cases hrule
  · exact h.inv.eq_of_perm hpos hstate h.final.1 h.final.2 hperm

/-- A state spells the words that lead from its stack to the final one. -/
theorem Built.spellsFrom_iff (hseparated : G.Separated (b.stackAt G A.finalState)) :
    ∀ (word : List String) {state : ℕ}, state < b.stateCount →
      (SpellsFrom A state word ↔ G.DerivesTo (b.stackAt G A.finalState) (b.stackAt G state) word)
  | [], state, hstate => h.eq_final_iff hpost hstate
  | t :: word, state, hstate => by
    have hfits : ∀ stack : List N, Fits 0 stack := fun stack hover => absurd hover.1 (lt_irrefl 0)
    have htriggers : ∀ trigger, trigger ∈ triggersOf A state ↔
        ∃ t ∈ b.pda, t.source = state ∧ trigger = ⟨t.dest, t.terminal⟩ := by
      simpa using (postprocess_eq_ok hpost).2.2.2 state
    constructor
    · rintro ⟨trigger, htrigger, rfl, hspells⟩
      obtain ⟨tr, htr, hsource, rfl⟩ := (htriggers _).mp htrigger
      obtain ⟨-, hdest, n, rest, rule, hstack, hrule, hterm, -, hperm⟩ := h.inv.follows tr htr
      rw [hsource] at hstack
      have hkept := h.inv.kept state hstate
      rw [hstack] at hkept ⊢
      have hderives := (Built.spellsFrom_iff hseparated word hdest).mp hspells
      exact ⟨rule, hrule, hterm.symm,
        (hseparated _ _ (h.inv.kept _ hdest) (hkept.step hrule (hfits _)) hperm word).mp hderives⟩
    · intro hderives
      cases hstack : b.stackAt G state with
      | nil =>
        rw [hstack] at hderives
        exact hderives.elim
      | cons n rest =>
        have hkept := h.inv.kept state hstate
        rw [hstack] at hderives hkept
        obtain ⟨rule, hrule, rfl, hrest⟩ := hderives
        obtain ⟨tr, htr, hsource, -, -, hterm, -, hperm⟩ :=
          h.done state hstate n rest hstack rule hrule (hfits _)
        have hdest := (h.inv.follows tr htr).2.1
        refine ⟨⟨tr.dest, tr.terminal⟩, (htriggers _).mpr ⟨tr, htr, hsource, rfl⟩, hterm, ?_⟩
        rw [Built.spellsFrom_iff hseparated word hdest,
          hseparated _ _ (h.inv.kept _ hdest) (hkept.step hrule (hfits _)) hperm word]
        exact hrest

end

/-- The final state is one whose stack is empty or cannot be derived further; which one the hash
    order says. If stacks that are merged lead to its stack with the same words, the automaton
    spells the words of the grammar just if these are the words that lead there. -/
theorem construct_automata_language (hash : HashOrder) (G : Grammar N) (rounds : ℕ) (b : Build N)
    (A : Automaton) (hexpand : expand G 0 rounds { worklist := [⟨0, [G.start]⟩] } = .ok b)
    (hpost : postprocess hash b.pda 0 = .ok A) :
    let final := b.stackAt G A.finalState
    (final = [] ∨ ∃ n rest, final = n :: rest ∧ G.rulesOf n = []) ∧
      (G.Separated final → ((∀ word, Spells A word ↔ G.Generates word) ↔
        ∀ word, G.LeadsTo final word ↔ G.Generates word)) := by
  have hbuilt := built_of_ok hexpand hpost
  have hpos : 0 < b.stateCount := by
    rw [hbuilt.inv.count]
    exact succ_pos _
  refine ⟨hbuilt.stuck hbuilt.final.2 (postprocess_eq_ok hpost).2.1.2, fun hseparated => ?_⟩
  refine forall_congr' fun word => ?_
  rw [Spells, hbuilt.init, hbuilt.spellsFrom_iff hpost hseparated word hpos, leadsTo_iff]
  rfl

end

/-- The hash sets of a run whose hash order is the order of insertion. -/
def inOrder : HashOrder := ⟨id, fun _ => .refl _⟩

/-- `S → a S | b`. -/
def repeating : Grammar Unit := ⟨(), fun _ => some [⟨"a", [()]⟩, ⟨"b", []⟩]⟩

theorem construct_automata_repeating :
    ∃ b A, expand repeating 0 3 { worklist := [⟨0, [()]⟩] } = .ok b ∧
    postprocess inOrder b.pda 0 = .ok A ∧ b.stackAt repeating A.finalState = [] ∧
    ∀ word, Spells A word ↔ repeating.Generates word := by
  have hseparated : ∀ final, repeating.Separated final := by
    intro final stack stack' _ _ hperm w
    rw [ext_getElem hperm.length_eq fun _ _ _ => rfl]
  refine ⟨_, _, rfl, rfl, rfl, ?_⟩
  refine ((construct_automata_language inOrder repeating 3 _ _ rfl rfl).2 (hseparated _)).mpr ?_
  intro word
  rw [leadsTo_iff, generates_iff]
  rfl

/-- `S → a A B | b B A`, `A → x`, `B → y`, with the nonterminals 0, 1 and 2. -/
def crossing : Grammar ℕ where
  start := 0
  rules n :=
    match n with
    | 0 => some [⟨"a", [1, 2]⟩, ⟨"b", [2, 1]⟩]
    | 1 => some [⟨"x", []⟩]
    | 2 => some [⟨"y", []⟩]
    | _ => none

/-- `S → a | b D` and a `D` without rules. -/
def stuck : Grammar ℕ where
  start := 0
  rules n := if n = 0 then some [⟨"a", []⟩, ⟨"b", [1]⟩] else some []

/-- The hash sets of a run whose hash order is the other way round. -/
def reversed : HashOrder := ⟨reverse, reverse_perm⟩

/-- The stacks `A B` and `B A` become one state: after `b` the automaton goes on as after `a`. And
    the state of the stack `D`, which has no rules, is picked as the final one. -/
theorem construct_automata_merges_stacks :
    (∃ A, constructAutomata inOrder crossing 0 4 = .ok A ∧
      (Spells A ["b", "x", "y"] ∧ ¬ crossing.Generates ["b", "x", "y"]) ∧
      (¬ Spells A ["b", "y", "x"] ∧ crossing.Generates ["b", "y", "x"])) ∧
    ∃ A, constructAutomata reversed stuck 0 3 = .ok A ∧
      (Spells A ["b"] ∧ ¬ stuck.Generates ["b"]) ∧ (¬ Spells A ["a"] ∧ stuck.Generates ["a"]) := by
  have hmerged : constructAutomata inOrder crossing 0 4 = .ok
      { initState := 0, finalState := 3
        pda := [[⟨1, "a"⟩, ⟨1, "b"⟩], [⟨2, "x"⟩], [⟨3, "y"⟩]] } := rfl
  have hpicked : constructAutomata reversed stuck 0 3 = .ok
      { initState := 0, finalState := 2, pda := [[⟨1, "a"⟩, ⟨2, "b"⟩]] } := rfl
  refine ⟨⟨_, hmerged, ?_⟩, _, hpicked, ?_⟩
  · simp only [generates_iff, Spells]
    decide
  · simp only [generates_iff, Spells]
    decide

/-! ### Stack limits -/

/-- A trigger from one state to another. -/
def Leads (s s' : ℕ) : Prop := ∃ trigger ∈ triggersOf A s, trigger.dest = s'

/-- Every state that is reached has triggers and can reach the final one. -/
def NoDeadEnds : Prop :=
  ∀ s, ReflTransGen (Leads A) A.initState s → s ≠ A.finalState →
    triggersOf A s ≠ [] ∧ ReflTransGen (Leads A) s A.finalState

/-- Every stack that comes up within the limit and has a step within it can be emptied within it. -/
def Grammar.Clears (G : Grammar N) (limit : ℕ) (rep : List N → List N) : Prop :=
  ∀ stack, G.Kept limit rep stack → (∃ stack', G.Within limit rep stack stack') →
    ReflTransGen (G.Within limit rep) stack []

/-- No two stacks that come up within the limit are permutations of each other. -/
def Grammar.Unmerged (G : Grammar N) (limit : ℕ) : Prop :=
  ∀ stack stack', G.Kept limit id stack → G.Kept limit id stack' → stack.Perm stack' → stack = stack'

section
variable {G : Grammar N} {limit : ℕ} {A : Automaton} {b : Build N} {hash : HashOrder}

theorem leads_iff (hlimit : 0 < limit) (hpost : postprocess hash b.pda limit = .ok A) {s s' : ℕ} :
    Leads A s s' ↔ Edge b.pda s s' ∧ ¬ Blocked b.pda s' := by
  obtain ⟨-, -, -, htriggers⟩ := postprocess_eq_ok hpost
  constructor
  · rintro ⟨trigger, htrigger, rfl⟩
    obtain ⟨t, ht, hs, rfl, hkept⟩ := (htriggers s trigger).mp htrigger
    exact ⟨⟨t, ht, hs, rfl⟩, hkept hlimit⟩
  · rintro ⟨⟨t, ht, hs, rfl⟩, hkept⟩
    exact ⟨_, (htriggers s _).mpr ⟨t, ht, hs, rfl, fun _ => hkept⟩, rfl⟩

/-- What lies on a path has a transition, and so it is not blocked. -/
theorem leads_of_path (hlimit : 0 < limit) (hpost : postprocess hash b.pda limit = .ok A) {s s' : ℕ}
    (hpath : ReflTransGen (Edge b.pda) s s') (hkept : ¬ Blocked b.pda s') :
    ReflTransGen (Leads A) s s' := by
  induction hpath with
  | refl => exact .refl
  | tail _ hedge ih =>
    obtain ⟨t, ht, hs, -⟩ := id hedge
    have hsource := mem_sources.mpr ⟨t, ht, hs⟩
    exact (ih fun hblocked => hblocked.1 hsource).tail ((leads_iff hlimit hpost).mpr ⟨hedge, hkept⟩)

variable [LinearOrder N]

/-- Every state that is reached has triggers and can reach the final one just if every state that
    has a transition in the table leads to the final one there. -/
theorem noDeadEnds_iff_edges (hlimit : 0 < limit) (h : Built G limit b A)
    (hpost : postprocess hash b.pda limit = .ok A) :
    NoDeadEnds A ↔ ∀ t ∈ b.pda, ReflTransGen (Edge b.pda) t.source A.finalState := by
  obtain ⟨⟨hinit, -⟩, ⟨-, hnosource⟩, hfinal, -⟩ := postprocess_eq_ok hpost
  have hunblocked := ((hfinal hlimit A.finalState).mpr rfl).2.2
  constructor
  · intro hno t ht
    have hsource := mem_sources.mpr ⟨t, ht, rfl⟩
    have hreached := leads_of_path hlimit hpost (h.inv.rooted _ (h.inv.follows t ht).1)
      fun hblocked => hblocked.1 hsource
    rw [← h.init] at hreached
    have hne : t.source ≠ A.finalState := fun heq => hnosource (heq ▸ hsource)
    exact ReflTransGen.mono (fun _ _ hstep => ((leads_iff hlimit hpost).mp hstep).1) _ _
      (hno t.source hreached hne).2
  · intro hpaths s hreached hne
    have hsource : s ∈ sources b.pda := by
      rcases hreached.cases_tail with rfl | ⟨_, -, hlast⟩
      · exact hinit
      · by_contra hnot
        obtain ⟨⟨t, ht, -, hdest⟩, hkept⟩ := (leads_iff hlimit hpost).mp hlast
        exact hne ((hfinal hlimit s).mp ⟨mem_dests.mpr ⟨t, ht, hdest⟩, hnot, hkept⟩)
    obtain ⟨t, ht, rfl⟩ := mem_sources.mp hsource
    have hout := leads_of_path hlimit hpost (hpaths t ht) hunblocked
    refine ⟨?_, hout⟩
    rcases hout.cases_head with heq | ⟨_, ⟨trigger, htrigger, -⟩, -⟩
    · exact absurd heq hne
    · exact ne_nil_of_mem htrigger

/-- For the stacks that come up within the limit, `rep` gives the stacks of the states. -/
def Stands (G : Grammar N) (limit : ℕ) (b : Build N) (rep : List N → List N) : Prop :=
  ∀ {s stack}, 0 < s → s < b.stateCount → G.Kept limit id stack → (b.stackAt G s).Perm stack →
    rep stack = b.stackAt G s

/-- The stack that came up first stands for its permutations, -/
theorem Built.stands_rep (h : Built G limit b A) : Stands G limit b b.rep := by
  intro s stack hpos hs _ hperm
  obtain ⟨i, rfl⟩ := Nat.exists_eq_succ_of_ne_zero hpos.ne'
  have hcount := h.inv.count
  have hi : i < b.q.length := by omega
  cases hfind : b.q.find? (·.Perm stack) with
  | none =>
    have hnot := find?_eq_none.mp hfind _ (getElem_mem hi)
    simp_all [Build.stackAt]
  | some first =>
    obtain ⟨j, hj, rfl⟩ := mem_iff_getElem.mp (mem_of_find?_eq_some hfind)
    have hfirst : b.stackAt G (j + 1) = b.q[j] := by simp [Build.stackAt, hj]
    have hsame : (b.q[j]).Perm stack := by simpa using find?_some hfind
    rw [← h.inv.eq_of_perm (succ_pos j) (by omega) hpos hs (hfirst ▸ hsame.trans hperm.symm), hfirst,
      Build.rep, hfind, Option.getD_some]

/-- and every stack for itself where none are merged. -/
theorem Built.stands_id (h : Built G limit b A) (hunmerged : G.Unmerged limit) :
    Stands G limit b id :=
  fun _ hs hkept hperm => (hunmerged _ _ (h.inv.kept _ hs) hkept hperm).symm

section
variable {rep : List N → List N} (h : Built G limit b A) (hrep : Stands G limit b rep)
include h hrep

/-- Transitions of the table are steps of the stacks that the states stand for, -/
theorem Built.within_of_edge {s s' : ℕ} (hedge : Edge b.pda s s') :
    G.Within limit rep (b.stackAt G s) (b.stackAt G s') := by
  obtain ⟨t, ht, rfl, rfl⟩ := hedge
  obtain ⟨hsource, hdest, n, rest, rule, hstack, hrule, -, -, hperm⟩ := h.inv.follows t ht
  have hfits := (h.inv.kept _ hdest).fits
  rw [Fits, hperm.length_eq] at hfits
  have hkept := (hstack ▸ h.inv.kept _ hsource).step hrule hfits
  exact ⟨n, rest, hstack, rule, hrule, hfits, (hrep (h.inv.positive t ht) hdest hkept hperm).symm⟩

/-- and the other way round. -/
theorem Built.edge_of_within {s : ℕ} {stack : List N} (hs : s < b.stateCount)
    (hstep : G.Within limit rep (b.stackAt G s) stack) :
    ∃ s' < b.stateCount, Edge b.pda s s' ∧ b.stackAt G s' = stack := by
  obtain ⟨n, rest, hstack, rule, hrule, hfits, rfl⟩ := hstep
  obtain ⟨t, ht, hsource, -, -, -, -, hperm⟩ := h.done s hs n rest hstack rule hrule hfits
  have hdest := (h.inv.follows t ht).2.1
  have hkept := (hstack ▸ h.inv.kept s hs).step hrule hfits
  exact ⟨t.dest, hdest, ⟨t, ht, hsource, rfl⟩, (hrep (h.inv.positive t ht) hdest hkept hperm).symm⟩

theorem Built.run_of_edges {s s' : ℕ} (hrun : ReflTransGen (Edge b.pda) s s') :
    ReflTransGen (G.Within limit rep) (b.stackAt G s) (b.stackAt G s') :=
  hrun.lift (b.stackAt G) fun _ _ => h.within_of_edge hrep

theorem Built.edges_of_run {s : ℕ} {stack : List N} (hs : s < b.stateCount)
    (hrun : ReflTransGen (G.Within limit rep) (b.stackAt G s) stack) :
    ∃ s' < b.stateCount, ReflTransGen (Edge b.pda) s s' ∧ b.stackAt G s' = stack := by
  induction hrun with
  | refl => exact ⟨s, hs, .refl, rfl⟩
  | tail _ hstep ih =>
    obtain ⟨s', hs', hedges, rfl⟩ := ih
    obtain ⟨s'', hs'', hedge, heq⟩ := h.edge_of_within hrep hs' hstep
    exact ⟨s'', hs'', hedges.tail hedge, heq⟩

end

section
variable (hlimit : 0 < limit) (h : Built G limit b A) (hpost : postprocess hash b.pda limit = .ok A)
include hlimit h hpost

/-- With a limit the final state is the one whose stack is empty. -/
theorem Built.stack_final_iff {s : ℕ} (hs : s < b.stateCount) :
    b.stackAt G s = [] ↔ s = A.finalState := by
  have hnil : b.stackAt G A.finalState = [] := by
    obtain ⟨-, ⟨hdest, hnosource⟩, hfinal, -⟩ := postprocess_eq_ok hpost
    obtain ⟨t, ht, htd⟩ := mem_dests.mp hdest
    obtain ⟨-, -, n, rest, rule, -, -, -, hlen, hperm⟩ := h.inv.follows t ht
    have hnot := ((hfinal hlimit _).mpr rfl).2.2
    rw [htd] at hperm
    refine length_eq_zero_iff.mp (hperm.length_eq.trans (hlen.symm.trans ?_))
    by_contra hne
    exact hnot ⟨hnosource, t, ht, htd, Nat.pos_of_ne_zero hne⟩
  constructor
  · intro hstack
    have hpos : 0 < s := by
      rcases Nat.eq_zero_or_pos s with rfl | hpos
      · cases (hstack : [G.start] = [])
      · exact hpos
    exact h.inv.eq_of_perm hpos hs h.final.1 h.final.2 (by rw [hstack, hnil])
  · rintro rfl
    exact hnil

theorem Built.noDeadEnds_iff_clears {rep : List N → List N} (hrep : Stands G limit b rep) :
    NoDeadEnds A ↔ G.Clears limit rep := by
  have hzero : 0 < b.stateCount := lt_of_le_of_lt (zero_le _) h.final.2
  have hfinal := fun {s} => h.stack_final_iff hlimit hpost (s := s)
  rw [noDeadEnds_iff_edges hlimit h hpost]
  constructor
  · rintro hpaths stack hkept ⟨stack', hstep⟩
    obtain ⟨s, hs, -, rfl⟩ := h.edges_of_run hrep hzero hkept
    obtain ⟨_, -, ⟨t, ht, rfl, -⟩, -⟩ := h.edge_of_within hrep hs hstep
    have hrun := h.run_of_edges hrep (hpaths t ht)
    rwa [(hfinal h.final.2).mpr rfl] at hrun
  · intro hclears t ht
    have hs := (h.inv.follows t ht).1
    have hrun := hclears _ (h.run_of_edges hrep (h.inv.rooted _ hs))
      ⟨_, h.within_of_edge hrep ⟨t, ht, rfl, rfl⟩⟩
    obtain ⟨s', hs', hedges, hnil⟩ := h.edges_of_run hrep hs hrun
    rwa [(hfinal hs').mp hnil] at hedges

end

end

/-- With a stack limit, every state that is reached has triggers and can reach the final one exactly
    if every stack that comes up and can go on within the limit can be emptied within it. Where
    stacks are merged, the first one that came up stands for its permutations. -/
theorem stack_limit_dead_ends_iff [LinearOrder N] (hash : HashOrder) (G : Grammar N)
    (stackLimit rounds : ℕ) (hlimit : 0 < stackLimit) (b : Build N) (A : Automaton)
    (hexpand : expand G stackLimit rounds { worklist := [⟨0, [G.start]⟩] } = .ok b)
    (hpost : postprocess hash b.pda stackLimit = .ok A) :
    (NoDeadEnds A ↔ G.Clears stackLimit b.rep) ∧
      (G.Unmerged stackLimit → (NoDeadEnds A ↔ G.Clears stackLimit id)) := by
  have hbuilt := built_of_ok hexpand hpost
  exact ⟨hbuilt.noDeadEnds_iff_clears hlimit hpost hbuilt.stands_rep, fun hunmerged =>
    hbuilt.noDeadEnds_iff_clears hlimit hpost (hbuilt.stands_id hunmerged)⟩

theorem stack_limit_repeating : ∃ b A, expand repeating 1 3 { worklist := [⟨0, [()]⟩] } = .ok b ∧
    postprocess inOrder b.pda 1 = .ok A ∧ (NoDeadEnds A ↔ repeating.Clears 1 id) := by
  refine ⟨_, _, rfl, rfl, ?_⟩
  refine (stack_limit_dead_ends_iff inOrder repeating 1 3 Nat.one_pos _ _ rfl rfl).2 ?_
  intro stack stack' _ _ hperm
  exact ext_getElem hperm.length_eq fun _ _ _ => rfl

/-- `S → x | y A`, `A → z B`, `B → w C C`, `C → v`, with the nonterminals 0 to 3. -/
def widening : Grammar ℕ where
  start := 0
  rules n :=
    match n with
    | 0 => some [⟨"x", []⟩, ⟨"y", [1]⟩]
    | 1 => some [⟨"z", [2]⟩]
    | 2 => some [⟨"w", [3, 3]⟩]
    | 3 => some [⟨"v", []⟩]
    | _ => none

/-- The automaton of it. -/
def culled : Automaton :=
  { initState := 0, finalState := 1, pda := [[⟨1, "x"⟩, ⟨2, "y"⟩, ⟨1, "x"⟩, ⟨2, "y"⟩]] }

/-- The stack `C C` is over the limit, so that the state of `B` is left out. The state of `A` is
    kept, and has no triggers. -/
theorem culling_leaves_dead_end : constructAutomata inOrder widening 1 4 = .ok culled ∧
    ReflTransGen (Leads culled) culled.initState 2 ∧ 2 ≠ culled.finalState ∧ triggersOf culled 2 = [] ∧
    ¬ NoDeadEnds culled := by
  have hreached : ReflTransGen (Leads culled) 0 2 := .single ⟨⟨2, "y"⟩, by decide, rfl⟩
  exact ⟨rfl, hreached, by decide, rfl, fun h => (h 2 hreached (by decide)).1 rfl⟩

end Bofuzz.ConstructAutomata
