import Bofuzz.Lib.Effect
import Bofuzz.Lib.Result
import Bofuzz.Lib.Run
import Bofuzz.Libafl.Rand

/-! Fuzzing with a grammar automaton (`libafl/src/generators/gramatron.rs`,
    `mutators/gramatron.rs`).

    An input is the list of the terminals that a run of the automaton emits, each with the state it
    was emitted in and the trigger that was taken. `leadsTo` follows the terminals of an input, and
    an input is a run if that ends in the final state. The splice and recursion mutators cut runs at
    equal states and put the pieces together again; the random mutator cuts a run anywhere and goes
    on from a trigger that it draws again, which need not be the one that was recorded. -/

namespace Bofuzz.Gramatron
open Bofuzz.Rand Run List Drawing Option
open Effect (toOption_eq_some)

structure Trigger where
  dest : ℕ
  term : String
  deriving DecidableEq

structure Automaton where
  finalState : ℕ
  initState : ℕ
  pda : List (List Trigger)

structure Terminal where
  state : ℕ
  triggerIdx : ℕ
  symbol : String
  deriving DecidableEq

abbrev Input := List Terminal

inductive Halt where
  /-- An index past the end of a vector. -/
  | index
  /-- "Triggers are empty in append_generated_terminals!" -/
  | noTriggers
  /-- "Corpus may not be empty!" -/
  | emptyCorpus
  /-- `debug_assert!(idx_1 < idx_2)`. -/
  | assert
  /-- A loop that has not come to its end yet. -/
  | unfinished
  deriving DecidableEq

inductive MutationResult where
  | mutated
  | skipped
  deriving DecidableEq

def indexed {α : Type} (xs : List α) (i : ℕ) : Except Halt α :=
  match xs[i]? with
  | some x => .ok x
  | none => .error .index

section
variable {R : Type} [Rand R] (A : Automaton)

/-! ### Generation -/

/-- A trigger of a state, drawn with its index. -/
def drawTrigger (state : ℕ) : Drawing R Halt (ℕ × Trigger) := do
  let triggers ← .ofResult (indexed A.pda state)
  if triggers.length = 0 then throw .noTriggers
  else
    let idx ← .draw (below triggers.length)
    let trigger ← .ofResult (indexed triggers idx)
    return (idx, trigger)

/-- Where `append_generated_terminals` starts: a trigger of the state of the last terminal is
    drawn. -/
def startState (terminals : Input) : Drawing R Halt ℕ := do
  match terminals.getLast? with
  | none => return A.initState
  | some last => return (← drawTrigger A last.state).2.dest

/-- The loop of `append_generated_terminals`, with a bound on its rounds. -/
def appendLoop : ℕ → ℕ → Input → Drawing R Halt Input
  | 0, currentState, terminals =>
    if currentState = A.finalState then return terminals else throw .unfinished
  | n + 1, currentState, terminals =>
    if currentState = A.finalState then return terminals
    else do
      let (idx, trigger) ← drawTrigger A currentState
      appendLoop n trigger.dest (terminals ++ [⟨currentState, idx, trigger.term⟩])

variable (rounds : ℕ)

def appendGeneratedTerminals (terminals : Input) : Drawing R Halt Input := do
  appendLoop A rounds (← startState A terminals) terminals

/-- `generate`. -/
def generate : Drawing R Halt Input := appendGeneratedTerminals A rounds []

/-! ### The random mutator -/

/-- The terminals that `GramatronRandomMutator` keeps. -/
def cutRandomly (terminals : Input) : StateM R Input := do
  if terminals = [] then return []
  else return terminals.take (← below (terminals.length + 1))

/-- `GramatronRandomMutator::mutate`. The input is cut also if the mutation is said to be
    skipped. -/
def randomMutate (terminals : Input) : Drawing R Halt (MutationResult × Input) := do
  let cut ← .draw (cutRandomly terminals)
  let out ← appendGeneratedTerminals A rounds cut
  return (if cut.length < out.length then .mutated else .skipped, out)

end

/-! ### The splice mutator -/

/-- `entry(state).or_insert(vec![]).push(i)`. -/
def pushIdx (map : ℕ → Option (List ℕ)) (entry : Terminal × ℕ) : ℕ → Option (List ℕ) :=
  Function.update map entry.1.state (some ((map entry.1.state).getD [] ++ [entry.2]))

/-- `GramatronIdxMapMetadata`: the positions of each state. -/
def idxMap (terminals : Input) : ℕ → Option (List ℕ) := terminals.zipIdx.foldl pushIdx fun _ => none

section
variable {R : Type} [Rand R]

/-- `GramatronSpliceMutator::mutate`. -/
def spliceMutate (corpus : List Input) (terminals : Input) :
    Drawing R Halt (MutationResult × Input) := do
  if terminals.length = 0 then return (.skipped, terminals)
  else if corpus.length = 0 then throw .emptyCorpus
  else
    let id ← .draw (below corpus.length)
    let insertAt ← .draw (below terminals.length)
    let randNum ← .draw draw
    let other ← .ofResult (indexed corpus id)
    let at_ ← .ofResult (indexed terminals insertAt)
    match idxMap other at_.state with
    | none => return (.skipped, terminals)
    | some splicePoints =>
      match splicePoints[fastBound randNum splicePoints.length]? with
      | none => return (.skipped, terminals)
      | some start => return (.mutated, terminals.take insertAt ++ other.drop start)

/-! ### The recursion mutator -/

/-- The counters of a state: how often it occurs, and where first and last. -/
structure Counter where
  nums : ℕ
  first : ℕ
  last : ℕ

/-- The counters of all states, and the states that occur more than once. -/
structure Counters where
  counters : ℕ → Option Counter := fun _ => none
  states : List ℕ := []

def Counters.count (c : Counters) (entry : Terminal × ℕ) : Counters :=
  match c.counters entry.1.state with
  | some counter =>
    { counters := Function.update c.counters entry.1.state
        (some ⟨counter.nums + 1, counter.first, max counter.last entry.2⟩)
      states := if counter.nums = 1 then c.states ++ [entry.1.state] else c.states }
  | none =>
    { c with counters := Function.update c.counters entry.1.state (some ⟨1, entry.2, entry.2⟩) }

variable (terminals : Input)

def countStates : Counters := terminals.zipIdx.foldl Counters.count {}

/-- The loop that looks for two occurrences of a state: `first` and `second` count down. -/
def locate (chosen : ℕ) : List ℕ → ℤ → ℤ → ℕ → Except Halt (ℕ × ℕ)
  | [], _, _, idx1 => .ok (idx1, 0)
  | i :: rest, first, second, idx1 => do
    let terminal ← indexed terminals i
    if terminal.state = chosen then
      let idx1 := if first = 0 then i else idx1
      if second = 0 then return (idx1, i)
      else locate chosen rest (first - 1) (second - 1) idx1
    else locate chosen rest first second idx1

/-- `RECUR_THRESHOLD`. -/
def recurThreshold : ℕ := 5

/-- `GramatronRecursionMutator::mutate`. -/
def recursionMutate : Drawing R Halt (MutationResult × Input) := do
  let counted := countStates terminals
  if counted.states.length = 0 then return (.skipped, terminals)
  else
    let chosen ← .ofResult (indexed counted.states (← .draw (below counted.states.length)))
    match counted.counters chosen with
    | none => throw .index
    | some counter =>
      if counter.nums - 1 = 0 then return (.skipped, terminals)
      else
        let first ← .draw (below (counter.nums - 1))
        let second ← .draw (between (first + 1) (counter.nums - 1))
        let (idx1, idx2) ← .ofResult (locate terminals chosen
          (List.range' counter.first (counter.last + 1 - counter.first)) first second 0)
        if idx1 < idx2 then
          let feature := (terminals.drop idx1).take (idx2 - idx1)
          let times ← .draw (below recurThreshold)
          return (.mutated, terminals.take idx1 ++ (List.replicate times feature).flatten ++
            terminals.drop idx2)
        else throw .assert

end

/-! ### Runs of the automaton -/

/-- The trigger that a terminal records. -/
def Automaton.trigger (A : Automaton) (t : Terminal) : Option Trigger :=
  A.pda[t.state]?.bind fun triggers => triggers[t.triggerIdx]?

/-- Where the terminals lead from a state, if each of them is emitted in the state that the one
    before leads to, with the symbol of its trigger. -/
def Automaton.leadsTo (A : Automaton) : ℕ → Input → Option ℕ
  | s, [] => some s
  | s, t :: rest =>
    if t.state = s then
      match A.trigger t with
      | some trigger => if trigger.term = t.symbol then A.leadsTo trigger.dest rest else none
      | none => none
    else none

/-- An accepting run. -/
def Automaton.IsRun (A : Automaton) (terminals : Input) : Prop :=
  A.leadsTo A.initState terminals = some A.finalState

instance (A : Automaton) (terminals : Input) : Decidable (A.IsRun terminals) :=
  inferInstanceAs (Decidable (_ = _))

/-! ### Campaigns -/

inductive Action where
  | generate
  | random (id : ℕ)
  | splice (id : ℕ)
  | recursion (id : ℕ)

/-- What is done next, with the draws for it and a bound on the rounds of the loop. -/
structure Event (R : Type) where
  action : Action
  rand : R
  rounds : ℕ

section
variable {R : Type} [Rand R] (A : Automaton) (corpus : List Input) (event : Event R)

/-- The input that an action leaves, if it comes to its end. -/
def perform : Option Input :=
  match event.action with
  | .generate => ((generate A event.rounds event.rand).toOption).map Prod.fst
  | .random id => corpus[id]?.bind fun terminals =>
    (randomMutate A event.rounds terminals event.rand).toOption.map fun result => result.1.2
  | .splice id => corpus[id]?.bind fun terminals =>
    (spliceMutate corpus terminals event.rand).toOption.map fun result => result.1.2
  | .recursion id => corpus[id]?.bind fun terminals =>
    (recursionMutate terminals event.rand).toOption.map fun result => result.1.2

/-- Every input that an action leaves joins the corpus. -/
def step : List Input :=
  corpus ++ (perform A corpus event).toList

/-- The random mutator goes on from where the terminals that it keeps lead. -/
def Resumes : Prop :=
  match event.action with
  | .random id =>
    ∀ terminals, corpus[id]? = some terminals →
      ∀ cut r, cutRandomly terminals event.rand = (cut, r) →
        ∀ start r', startState A cut r = .ok (start, r') →
          (∃ out, appendLoop A event.rounds start cut r' = .ok out) →
            A.leadsTo A.initState cut = some start
  | _ => True

end

/-! ### Cutting runs -/

section
variable {A : Automaton} {s u : ℕ} {xs ys terminals : Input}

theorem indexed_eq_ok {α : Type} {xs : List α} {i : ℕ} {x : α} :
    indexed xs i = .ok x ↔ xs[i]? = some x := by
  unfold indexed
  split <;> simp_all

theorem leadsTo_append : ∀ (xs ys : Input) (s : ℕ),
    A.leadsTo s (xs ++ ys) = (A.leadsTo s xs).bind fun u => A.leadsTo u ys
  | [], _, _ => rfl
  | t :: xs, ys, s => by
    simp only [cons_append, Automaton.leadsTo]
    split
    · cases A.trigger t with
      | none => rfl
      | some trigger =>
        simp only
        split
        · exact leadsTo_append xs ys trigger.dest
        · rfl
    · rfl

theorem leadsTo_append_of_some (h : A.leadsTo s xs = some u) :
    A.leadsTo s (xs ++ ys) = A.leadsTo u ys := by
  rw [leadsTo_append, h, bind_some]

/-- A list of terminals that leads somewhere begins in the state of its first terminal. -/
theorem leadsTo_head {t : Terminal} (h : A.leadsTo s (t :: xs) = some u) : t.state = s := by
  by_contra hne
  simp [Automaton.leadsTo, hne] at h

/-- A run, cut at a terminal: the first part leads to the state of the terminal, the second from
    there to the end. -/
theorem isRun_cut (h : A.IsRun terminals) {i : ℕ} {t : Terminal} (ht : terminals[i]? = some t) :
    A.leadsTo A.initState (terminals.take i) = some t.state ∧
      A.leadsTo t.state (terminals.drop i) = some A.finalState := by
  obtain ⟨hi, rfl⟩ := List.getElem?_eq_some_iff.mp ht
  rw [Automaton.IsRun, ← take_append_drop i terminals, leadsTo_append] at h
  obtain ⟨u, hu, hrest⟩ := bind_eq_some_iff.mp h
  have hstate : terminals[i].state = u := by
    rw [drop_eq_getElem_cons hi] at hrest
    exact leadsTo_head hrest
  rw [hstate]
  exact ⟨hu, hrest⟩

theorem isRun_take (h : A.IsRun terminals) (n : ℕ) :
    ∃ u, A.leadsTo A.initState (terminals.take n) = some u := by
  rw [Automaton.IsRun, ← take_append_drop n terminals, leadsTo_append] at h
  obtain ⟨u, hu, -⟩ := bind_eq_some_iff.mp h
  exact ⟨u, hu⟩

/-- The terminals between two occurrences of a state. -/
theorem leadsTo_between (h : A.IsRun terminals) {i j : ℕ} {t t' : Terminal} (hij : i ≤ j)
    (ht : terminals[i]? = some t) (ht' : terminals[j]? = some t') :
    A.leadsTo t.state ((terminals.drop i).take (j - i)) = some t'.state := by
  have hi := (isRun_cut h ht).1
  have hj := (isRun_cut h ht').1
  have hsplit : terminals.take j = terminals.take i ++ (terminals.drop i).take (j - i) := by
    rw [← take_add, Nat.add_sub_cancel' hij]
  rwa [hsplit, leadsTo_append_of_some hi] at hj

theorem leadsTo_replicate (h : A.leadsTo s xs = some s) : ∀ n : ℕ,
    A.leadsTo s (replicate n xs).flatten = some s
  | 0 => rfl
  | n + 1 => by
    rw [replicate_succ, flatten_cons, leadsTo_append_of_some h]
    exact leadsTo_replicate h n

end

/-! ### What is appended -/

section
variable {R : Type} [Rand R] {A : Automaton} {r r' : R}

theorem drawTrigger_eq_ok {state idx : ℕ} {trigger : Trigger}
    (h : drawTrigger A state r = .ok ((idx, trigger), r')) :
    A.trigger ⟨state, idx, trigger.term⟩ = some trigger := by
  obtain ⟨triggers, r₁, htriggers, h⟩ := bind_eq_ok.mp h
  obtain ⟨hpda, -⟩ := ofResult_eq_ok.mp htriggers
  rw [indexed_eq_ok] at hpda
  split at h
  · exact absurd h throw_eq_ok
  obtain ⟨idx', r₂, -, h⟩ := bind_eq_ok.mp h
  obtain ⟨trigger', r₃, htrigger, h⟩ := bind_eq_ok.mp h
  obtain ⟨hget, -⟩ := ofResult_eq_ok.mp htrigger
  obtain ⟨heq, -⟩ := pure_eq_ok.mp h
  cases heq
  rw [indexed_eq_ok] at hget
  simp [Automaton.trigger, hpda, hget]

/-- The loop appends terminals that lead to the final state. -/
theorem appendLoop_eq_ok : ∀ {n currentState : ℕ} {terminals out : Input} {r r' : R},
    appendLoop A n currentState terminals r = .ok (out, r') →
      ∃ rest, out = terminals ++ rest ∧ A.leadsTo currentState rest = some A.finalState
  | 0, currentState, terminals, out, r, r', h => by
    unfold appendLoop at h
    split at h
    · next hfinal =>
      cases h
      exact ⟨[], (append_nil _).symm, by rw [hfinal]; rfl⟩
    · exact absurd h throw_eq_ok
  | n + 1, currentState, terminals, out, r, r', h => by
    unfold appendLoop at h
    split at h
    · next hfinal =>
      cases h
      exact ⟨[], (append_nil _).symm, by rw [hfinal]; rfl⟩
    · obtain ⟨⟨idx, trigger⟩, r₁, htrigger, h⟩ := bind_eq_ok.mp h
      obtain ⟨rest, rfl, hrest⟩ := appendLoop_eq_ok h
      refine ⟨⟨currentState, idx, trigger.term⟩ :: rest, by simp, ?_⟩
      simp [Automaton.leadsTo, drawTrigger_eq_ok htrigger, hrest]

variable {rounds : ℕ} {out : Input}

theorem generate_isRun (h : generate A rounds r = .ok (out, r')) : A.IsRun out := by
  obtain ⟨start, r₁, hstart, h⟩ := bind_eq_ok.mp h
  cases hstart
  obtain ⟨rest, rfl, hrest⟩ := appendLoop_eq_ok h
  exact hrest

/-- What is appended to the beginning of a run makes it a run exactly if the loop starts where the
    beginning leads. -/
theorem isRun_appendLoop_iff {start : ℕ} {cut : Input}
    (hcut : ∃ u, A.leadsTo A.initState cut = some u)
    (h : appendLoop A rounds start cut r = .ok (out, r')) :
    A.IsRun out ↔ A.leadsTo A.initState cut = some start := by
  obtain ⟨u, hu⟩ := hcut
  obtain ⟨rest, rfl, hrest⟩ := appendLoop_eq_ok h
  rw [Automaton.IsRun, leadsTo_append_of_some hu, hu, Option.some.injEq]
  constructor
  · intro hfinal
    cases rest with
    | nil => exact Option.some.inj (hfinal.trans hrest.symm)
    | cons t rest => exact (leadsTo_head hfinal).symm.trans (leadsTo_head hrest)
  · rintro rfl
    exact hrest

theorem cutRandomly_eq {terminals cut : Input} (h : cutRandomly terminals r = (cut, r')) :
    ∃ n, cut = terminals.take n := by
  unfold cutRandomly at h
  split at h
  · next hnil =>
    cases h
    exact ⟨0, rfl⟩
  · cases h
    exact ⟨_, rfl⟩

/-- The random mutator leaves a run exactly if it goes on from where the terminals that it keeps
    lead. -/
theorem isRun_randomMutate_iff {terminals : Input} {result : MutationResult}
    (hrun : A.IsRun terminals) (h : randomMutate A rounds terminals r = .ok ((result, out), r')) :
    A.IsRun out ↔ ∀ cut r₁, cutRandomly terminals r = (cut, r₁) →
      ∀ start r₂, startState A cut r₁ = .ok (start, r₂) →
        (∃ out, appendLoop A rounds start cut r₂ = .ok out) → A.leadsTo A.initState cut = some start := by
  obtain ⟨cut, r₁, hcut, h⟩ := bind_eq_ok.mp h
  rw [draw_eq_ok] at hcut
  obtain ⟨out', r₂, happend, h⟩ := bind_eq_ok.mp h
  obtain ⟨heq, -⟩ := pure_eq_ok.mp h
  obtain ⟨start, r₃, hstart, happend⟩ := bind_eq_ok.mp happend
  cases heq
  have hprefix : ∃ u, A.leadsTo A.initState cut = some u := by
    obtain ⟨n, rfl⟩ := cutRandomly_eq hcut
    exact isRun_take hrun n
  rw [isRun_appendLoop_iff hprefix happend]
  constructor
  · intro hleads cut' r₁' hcut' start' r₂' hstart' _
    cases hcut.symm.trans hcut'
    cases hstart.symm.trans hstart'
    exact hleads
  · intro hall
    exact hall cut r₁ hcut start r₃ hstart ⟨_, happend⟩

end

/-! ### Splicing and recursion -/

section
variable {A : Automaton} {terminals : Input}

/-- Every position in the map is one of its state. -/
def Positions (terminals : Input) (map : ℕ → Option (List ℕ)) : Prop :=
  ∀ s points, map s = some points → ∀ i ∈ points, ∃ t, terminals[i]? = some t ∧ t.state = s

theorem positions_push {map : ℕ → Option (List ℕ)} {entry : Terminal × ℕ}
    (hmap : Positions terminals map) (hentry : terminals[entry.2]? = some entry.1) :
    Positions terminals (pushIdx map entry) := by
  refine (Function.forall_update_iff map fun s found => ∀ points, found = some points → ∀ i ∈ points,
    ∃ t, terminals[i]? = some t ∧ t.state = s).mpr ⟨?_, fun s _ => hmap s⟩
  rintro _ ⟨⟩
  refine forall_mem_append.mpr ⟨?_, forall_mem_singleton.mpr ⟨entry.1, hentry, rfl⟩⟩
  cases hget : map entry.1.state with
  | none => simp
  | some points => exact hmap _ points hget

theorem positions_idxMap (terminals : Input) : Positions terminals (idxMap terminals) := by
  apply foldlRecOn
  · intro s points hpoints
    cases hpoints
  · intro map hmap entry hentry
    exact positions_push hmap (mem_zipIdx_iff_getElem?.mp hentry)

theorem isRun_splice {other : Input} (hrun : A.IsRun terminals) (hother : A.IsRun other) {i j : ℕ}
    {t t' : Terminal} (ht : terminals[i]? = some t) (ht' : other[j]? = some t')
    (hstate : t'.state = t.state) : A.IsRun (terminals.take i ++ other.drop j) := by
  rw [Automaton.IsRun, leadsTo_append_of_some (isRun_cut hrun ht).1, ← hstate]
  exact (isRun_cut hother ht').2

/-- What the search finds are two occurrences of the state, as `first` comes to zero before
    `second`. -/
theorem locate_spec {chosen : ℕ} :
    ∀ {is : List ℕ} {first second : ℤ} {idx1 i j : ℕ}, first < second →
    (first < 0 → ∃ t, terminals[idx1]? = some t ∧ t.state = chosen) →
    locate terminals chosen is first second idx1 = .ok (i, j) → i < j →
      (∃ t, terminals[i]? = some t ∧ t.state = chosen) ∧ ∃ t, terminals[j]? = some t ∧ t.state = chosen
  | [], _, _, _, _, _, _, _, h, hij => by
    cases h
    omega
  | k :: is, first, second, idx1, i, j, hlt, hfirst, h, hij => by
    obtain ⟨t, hget, h⟩ := Result.bind_eq_ok.mp h
    have ht := indexed_eq_ok.mp hget
    by_cases hstate : t.state = chosen
    · have hfirst' : first - 1 < 0 →
          ∃ t, terminals[if first = 0 then k else idx1]? = some t ∧ t.state = chosen := by
        intro hneg
        split_ifs
        · exact ⟨t, ht, hstate⟩
        · exact hfirst (by omega)
      rw [if_pos hstate] at h
      by_cases hsecond : second = 0
      · rw [if_pos hsecond] at h
        cases h
        exact ⟨hfirst' (by omega), t, ht, hstate⟩
      · rw [if_neg hsecond] at h
        exact locate_spec (by omega) hfirst' h hij
    · rw [if_neg hstate] at h
      exact locate_spec hlt hfirst h hij

theorem isRun_repeat (hrun : A.IsRun terminals) {i j : ℕ} {t t' : Terminal} (hij : i < j)
    (ht : terminals[i]? = some t) (ht' : terminals[j]? = some t') (hstate : t'.state = t.state)
    (n : ℕ) :
    A.IsRun (terminals.take i ++ (replicate n ((terminals.drop i).take (j - i))).flatten ++
      terminals.drop j) := by
  have hloop := leadsTo_between hrun (Nat.le_of_lt hij) ht ht'
  rw [hstate] at hloop
  rw [Automaton.IsRun, append_assoc, leadsTo_append_of_some (isRun_cut hrun ht).1,
    leadsTo_append_of_some (leadsTo_replicate hloop n), ← hstate]
  exact (isRun_cut hrun ht').2

end

section
variable {R : Type} [Rand R] {A : Automaton} {r r' : R} {terminals out : Input} {result : MutationResult}
variable {corpus : List Input}

theorem spliceMutate_isRun (hcorpus : ∀ x ∈ corpus, A.IsRun x) (hrun : A.IsRun terminals)
    (h : spliceMutate corpus terminals r = .ok ((result, out), r')) : A.IsRun out := by
  unfold spliceMutate at h
  split at h
  · cases h
    exact hrun
  split at h
  · exact absurd h throw_eq_ok
  obtain ⟨id, r₁, -, h⟩ := bind_eq_ok.mp h
  obtain ⟨insertAt, r₂, -, h⟩ := bind_eq_ok.mp h
  obtain ⟨randNum, r₃, -, h⟩ := bind_eq_ok.mp h
  obtain ⟨other, r₄, hother, h⟩ := bind_eq_ok.mp h
  obtain ⟨t, r₅, ht, h⟩ := bind_eq_ok.mp h
  have hother := indexed_eq_ok.mp (ofResult_eq_ok.mp hother).1
  have hget := indexed_eq_ok.mp (ofResult_eq_ok.mp ht).1
  cases hpoints : idxMap other t.state with
  | none =>
    rw [hpoints] at h
    cases h
    exact hrun
  | some points =>
    rw [hpoints] at h
    cases hstart : points[fastBound randNum points.length]? with
    | none =>
      simp only [hstart] at h
      cases h
      exact hrun
    | some start =>
      simp only [hstart] at h
      cases h
      obtain ⟨t', ht', hstate⟩ :=
        positions_idxMap other _ _ hpoints start (mem_of_getElem? hstart)
      exact isRun_splice hrun (hcorpus other (mem_of_getElem? hother)) hget ht' hstate

theorem recursionMutate_isRun (hrun : A.IsRun terminals)
    (h : recursionMutate terminals r = .ok ((result, out), r')) : A.IsRun out := by
  unfold recursionMutate at h
  split at h
  · cases h
    exact hrun
  obtain ⟨n, r₁, -, h⟩ := bind_eq_ok.mp h
  obtain ⟨chosen, r₂, -, h⟩ := bind_eq_ok.mp h
  cases hcounter : (countStates terminals).counters chosen with
  | none =>
    rw [hcounter] at h
    cases h
  | some counter =>
  rw [hcounter] at h
  simp only at h
  split at h
  · cases h
    exact hrun
  obtain ⟨first, r₃, -, h⟩ := bind_eq_ok.mp h
  obtain ⟨second, r₄, hsecond, h⟩ := bind_eq_ok.mp h
  obtain ⟨⟨i, j⟩, r₅, hlocate, h⟩ := bind_eq_ok.mp h
  have hlocate := (ofResult_eq_ok.mp hlocate).1
  split at h
  · next hij =>
    obtain ⟨n, r₆, -, h⟩ := bind_eq_ok.mp h
    cases h
    have hlt : (first : ℤ) < second := by
      have hdraw : (between (first + 1) (counter.nums - 1) r₃).1 = second :=
        congrArg Prod.fst (draw_eq_ok.mp hsecond)
      have hle : first + 1 ≤ second := by
        rw [← hdraw]
        exact Nat.le_add_right _ _
      omega
    obtain ⟨⟨t, ht, hstate⟩, t', ht', hstate'⟩ := locate_spec hlt (by omega) hlocate hij
    exact isRun_repeat hrun hij ht ht' (hstate'.trans hstate.symm) n
  · exact absurd h throw_eq_ok

/-! ### Whole campaigns -/

/-- Every input of the corpus is an accepting run. -/
def AllRuns (A : Automaton) (corpus : List Input) : Prop := ∀ terminals ∈ corpus, A.IsRun terminals

instance (A : Automaton) (corpus : List Input) : Decidable (AllRuns A corpus) :=
  inferInstanceAs (Decidable (∀ terminals ∈ corpus, _))

theorem allRuns_step_iff (hcorpus : AllRuns A corpus) (event : Event R) :
    AllRuns A (step A corpus event) ↔ ∀ out, perform A corpus event = some out → A.IsRun out := by
  unfold AllRuns at hcorpus ⊢
  rw [step, forall_mem_append, and_iff_right hcorpus]
  simp only [mem_toList]

theorem perform_random_eq_some {id rounds : ℕ} :
    perform A corpus ⟨.random id, r, rounds⟩ = some out ↔
      ∃ terminals result r', corpus[id]? = some terminals ∧
        randomMutate A rounds terminals r = .ok ((result, out), r') := by
  simp [perform, bind_eq_some_iff, toOption_eq_some]

/-- An action leaves a run exactly if it resumes from the right state. -/
theorem perform_isRun_iff (hcorpus : AllRuns A corpus) (event : Event R) :
    (∀ out, perform A corpus event = some out → A.IsRun out) ↔ Resumes A corpus event := by
  obtain ⟨action, rand, rounds⟩ := event
  cases action with
  | generate =>
    simp only [Resumes, iff_true, perform, map_eq_some_iff, toOption_eq_some, Prod.exists]
    rintro out ⟨terminals, r, hgen, rfl⟩
    exact generate_isRun hgen
  | splice id =>
    simp only [Resumes, iff_true, perform, bind_eq_some_iff, map_eq_some_iff, toOption_eq_some, Prod.exists]
    rintro out ⟨terminals, hid, result, out', r, hsplice, rfl⟩
    exact spliceMutate_isRun hcorpus (hcorpus terminals (mem_of_getElem? hid)) hsplice
  | recursion id =>
    simp only [Resumes, iff_true, perform, bind_eq_some_iff, map_eq_some_iff, toOption_eq_some, Prod.exists]
    rintro out ⟨terminals, hid, result, out', r, hrec, rfl⟩
    exact recursionMutate_isRun (hcorpus terminals (mem_of_getElem? hid)) hrec
  | random id =>
    simp only [perform_random_eq_some]
    constructor
    · intro hall terminals hid cut r₁ hcut start r₂ hstart hloop
      obtain ⟨⟨out, r₃⟩, hloop⟩ := hloop
      have hmutate : randomMutate A rounds terminals rand =
          .ok ((if cut.length < out.length then .mutated else .skipped, out), r₃) := by
        rw [randomMutate, bind_eq_ok]
        refine ⟨cut, r₁, draw_eq_ok.mpr hcut, bind_eq_ok.mpr ⟨out, r₃, ?_, rfl⟩⟩
        exact bind_eq_ok.mpr ⟨start, r₂, hstart, hloop⟩
      have hout := hall out ⟨terminals, _, r₃, hid, hmutate⟩
      have hrun := hcorpus terminals (mem_of_getElem? hid)
      exact (isRun_randomMutate_iff hrun hmutate).mp hout cut r₁ hcut start r₂ hstart ⟨_, hloop⟩
    · rintro hresumes out ⟨terminals, result, r', hid, hmutate⟩
      have hrun := hcorpus terminals (mem_of_getElem? hid)
      exact (isRun_randomMutate_iff hrun hmutate).mpr (hresumes terminals hid)

/-- In a campaign that starts from nothing, all inputs are runs all the way exactly if the random
    mutator always goes on from where the terminals that it keeps lead. -/
theorem gramatron_runs_iff (A : Automaton) (events : List (Event R)) :
    (∀ n, AllRuns A (run (step A) [] (events.take n))) ↔ Along (step A) (Resumes A) [] events := by
  refine forall_take_iff ?_ events [] (fun _ h => absurd h not_mem_nil)
  intro corpus event hcorpus
  rw [allRuns_step_iff hcorpus, perform_isRun_iff hcorpus]

end

/-- An automaton with two ways, `a c` and `b d`. -/
def twoWays : Automaton where
  finalState := 3
  initState := 0
  pda := [[⟨1, "a"⟩, ⟨2, "b"⟩], [⟨3, "c"⟩], [⟨3, "d"⟩], []]

/-- After `a c` was generated, the random mutator keeps `a` and goes on with `d`. -/
theorem random_mutator_changes_way :
    let half : UInt64 := 0x8000000000000000
    let corpus := run (step twoWays) [] [⟨.generate, ([] : List UInt64), 2⟩, ⟨.random 0, [half, half], 2⟩]
    (∀ s < 3, (twoWays.pda[s]?.getD []).length ≠ 0) ∧
      corpus = [[⟨0, 0, "a"⟩, ⟨1, 0, "c"⟩], [⟨0, 0, "a"⟩, ⟨2, 0, "d"⟩]] ∧
      ¬ AllRuns twoWays corpus := by
  decide

end Bofuzz.Gramatron
