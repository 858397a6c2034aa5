import Bofuzz.Libafl.MapFeedback
import Mathlib.Data.List.GetD

/-! Trees of feedbacks and the novelties they attach (`libafl/src/feedbacks/mod.rs`,
    `feedbacks/map.rs`, `fuzzer/mod.rs`).

    A map feedback remembers the indexes it found novel from `is_interesting` until
    `append_metadata` takes them. A fast combinator may leave a feedback out of the first call,
    never out of the second, and nothing clears the list of an execution that is rejected: it waits
    for the next testcase. -/

namespace Bofuzz.FeedbackTree
open Effect Run MapFeedback Function

/-! ### Combinators -/

inductive Logic where | eagerOr | fastOr | eagerAnd | fastAnd

/-- `is_pair_interesting`, for feedbacks that are computations of any kind. -/
def Logic.isPairInteresting {m : Type → Type} [Monad m] (logic : Logic) (first second : m Bool) :
    m Bool :=
  match logic with
  | .eagerOr => do
    let a ← first
    let b ← second
    pure (a || b)
  | .fastOr => do
    let a ← first
    if a then pure true else second
  | .eagerAnd => do
    let a ← first
    let b ← second
    pure (a && b)
  | .fastAnd => do
    let a ← first
    if a then second else pure false

/-- The answers of the first feedback that a combinator returns without asking the second one. -/
def Logic.stops : Logic → Bool → Bool
  | .fastOr, a => a
  | .fastAnd, a => !a
  | _, _ => false

def Logic.join : Logic → Bool → Bool → Bool
  | .eagerOr, a, b | .fastOr, a, b => a || b
  | .eagerAnd, a, b | .fastAnd, a, b => a && b

theorem Logic.isPairInteresting_eq {m : Type → Type} [Monad m] [LawfulMonad m] (logic : Logic)
    (first second : m Bool) : logic.isPairInteresting first second =
      first >>= fun a => if logic.stops a then pure a else logic.join a <$> second := by
  have hor : fastOr.join false = id := by
    funext b
    exact Bool.false_or b
  have hand : fastAnd.join true = id := by
    funext b
    exact Bool.true_and b
  cases logic with
  | eagerOr | eagerAnd => simp [isPairInteresting, stops]; rfl
  | fastOr | fastAnd =>
    rw [isPairInteresting]
    congr
    funext a
    cases a <;> simp [stops, hor, hand]

/-! ### The feedbacks -/

variable {ν : Type} [DecidableEq ν] {T : ν → Type} [∀ n, MapEntry (T n)] [∀ n, DecidableEq (T n)]

/-- The metadata that the state keeps under the names of the map feedbacks. Feedbacks of one name
    share it. -/
abbrev Histories (T : ν → Type) : Type := ∀ n, MapFeedbackMetadata (T n)

/-- A map feedback with its observer and the list that it holds, if it tracks novelties. -/
structure MapLeaf (T : ν → Type) where
  name : ν
  observer : ℕ
  id : ℕ
  reducer : Reducer
  isNovel : T name → T name → Bool
  indices : Bool
  novelties : Option (List ℕ)

inductive Tree (T : ν → Type) where
  | map (leaf : MapLeaf T)
  | other (id : ℕ)
  | not (inner : Tree T)
  | combined (logic : Logic) (first second : Tree T)

/-- What an execution leaves in the observers, and how everything answers that is not modelled: the
    other feedbacks, the event manager, the corpus and the scheduler. -/
structure Execution (T : ν → Type) where
  maps : ∀ n, ℕ → List (T n)
  interesting : ℕ → Except Error Bool
  appends : ℕ → Except Error Unit := fun _ => .ok ()
  discards : ℕ → Except Error Unit := fun _ => .ok ()
  fireFails : ℕ → Bool := fun _ => false
  adds : Except Error Unit := .ok ()
  onAdds : Except Error Unit := .ok ()

/-- The metadata of a testcase, as far as map feedbacks list novelties in it. -/
structure Testcase where
  novelties : Option (List ℕ) := none
  deriving DecidableEq

variable (initial : ∀ n, T n) (x : Execution T) (leaf : MapLeaf T)

/-- The feedback with the initial value of the maps that go by its name. -/
def MapLeaf.feedback : Feedback (T leaf.name) :=
  ⟨leaf.reducer, leaf.isNovel, leaf.indices, initial leaf.name⟩

def MapLeaf.observed : List (T leaf.name) := x.maps leaf.name leaf.observer

variable (check : Histories T → EStateM.Result Error (Tree T × Histories T) Bool)

/-- Asking one feedback of a pair. -/
def onFirst : EStateM Error (Tree T × Tree T × Histories T) Bool := fun s =>
  match check s.2.2 with
  | .ok b (first, h) => .ok b (first, s.2.1, h)
  | .error e (first, h) => .error e (first, s.2.1, h)

@[inherit_doc onFirst]
def onSecond :
    EStateM Error (Tree T × Tree T × Histories T) Bool := fun s =>
  match check s.2.2 with
  | .ok b (second, h) => .ok b (s.1, second, h)
  | .error e (second, h) => .error e (s.1, second, h)

/-- `is_interesting`. The tree changes in place, also where a feedback fails. -/
def Tree.isInteresting : Tree T → Histories T → EStateM.Result Error (Tree T × Histories T) Bool
  | .map leaf, h =>
    let (interesting, w) := isInterestingDefault (leaf.feedback initial) (leaf.observed x)
      ⟨leaf.novelties, h leaf.name⟩
    .ok interesting
      (.map { leaf with novelties := w.novelties }, Function.update h leaf.name w.mapState)
  | .other id, h => ofResult (x.interesting id) (.other id, h)
  | .not inner, h =>
    match isInteresting inner h with
    | .ok b (inner, h) => .ok (!b) (.not inner, h)
    | .error e (inner, h) => .error e (.not inner, h)
  | .combined logic first second, h =>
    match logic.isPairInteresting (onFirst (isInteresting first)) (onSecond (isInteresting second))
        (first, second, h) with
    | .ok b (first, second, h) => .ok b (.combined logic first second, h)
    | .error e (first, second, h) => .error e (.combined logic first second, h)

/-- `append_metadata`, for all the feedbacks of the tree from left to right. A later list of
    novelties takes the place of an earlier one. -/
def Tree.appendMetadata : Tree T → Histories T × Testcase →
    EStateM.Result Error (Tree T × Histories T × Testcase) Unit
  | .map leaf, (h, testcase) =>
    match MapFeedback.appendMetadata (leaf.feedback initial) (leaf.observed x) (x.fireFails leaf.id)
        ⟨leaf.novelties, h leaf.name⟩ with
    | .ok appended w =>
      .ok () (.map { leaf with novelties := w.novelties }, Function.update h leaf.name w.mapState,
        { testcase with novelties := appended.novelties <|> testcase.novelties })
    | .error e w =>
      .error e (.map { leaf with novelties := w.novelties }, Function.update h leaf.name w.mapState,
        testcase)
  | .other id, s => ofResult (x.appends id) (.other id, s)
  | .not inner, s =>
    match appendMetadata inner s with
    | .ok _ (inner, s) => .ok () (.not inner, s)
    | .error e (inner, s) => .error e (.not inner, s)
  | .combined logic first second, s =>
    match appendMetadata first s with
    | .error e (first, s) => .error e (.combined logic first second, s)
    | .ok _ (first, s) =>
      match appendMetadata second s with
      | .ok _ (second, s) => .ok () (.combined logic first second, s)
      | .error e (second, s) => .error e (.combined logic first second, s)

/-- `discard_metadata`, which a map feedback does not implement. -/
def Tree.discardMetadata : Tree T → Except Error Unit
  | .map _ => .ok ()
  | .other id => x.discards id
  | .not inner => discardMetadata inner
  | .combined _ first second => do
    discardMetadata first
    discardMetadata second

/-! ### The fuzzer -/

/-- The feedback decides on the corpus, the objective on the solutions. -/
inductive Part where | feedback | objective
  deriving DecidableEq

structure Fuzzer (T : ν → Type) where
  tree : Part → Tree T
  histories : Histories T
  added : Part → List Testcase := fun _ => []

inductive ExecuteInputResult where | none | corpus | solution

/-- `is_interesting` of the feedback or of the objective. -/
def interesting (part : Part) : EStateM Error (Fuzzer T) Bool := fun f =>
  match (f.tree part).isInteresting initial x f.histories with
  | .ok b (t, histories) => .ok b { f with tree := Function.update f.tree part t, histories }
  | .error e (t, histories) => .error e { f with tree := Function.update f.tree part t, histories }

/-- A testcase with the metadata of the feedback or of the objective. -/
def append (part : Part) : EStateM Error (Fuzzer T) Testcase := fun f =>
  match (f.tree part).appendMetadata initial x (f.histories, {}) with
  | .ok _ (t, histories, testcase) =>
    .ok testcase { f with tree := Function.update f.tree part t, histories }
  | .error e (t, histories, _) => .error e { f with tree := Function.update f.tree part t, histories }

/-- The testcase is added to the corpus of the part. -/
def add (part : Part) : EStateM Error (Fuzzer T) Unit := do
  let testcase ← append initial x part
  ofResult x.adds
  modify fun f => { f with added := Function.update f.added part (f.added part ++ [testcase]) }

def checkResults : EStateM Error (Fuzzer T) ExecuteInputResult := do
  let isSolution ← interesting initial x .objective
  if isSolution then pure .solution
  else
    let corpusWorthy ← interesting initial x .feedback
    pure (if corpusWorthy then .corpus else .none)

def processExecution : ExecuteInputResult → EStateM Error (Fuzzer T) Unit
  | .none => do
    let f ← get
    ofResult ((f.tree .feedback).discardMetadata x)
    ofResult ((f.tree .objective).discardMetadata x)
  | .corpus => do
    let f ← get
    ofResult ((f.tree .objective).discardMetadata x)
    add initial x .feedback
    ofResult x.onAdds
  | .solution => do
    let f ← get
    ofResult ((f.tree .feedback).discardMetadata x)
    add initial x .objective

variable (f : Fuzzer T)

/-- One execution, as `evaluate_execution` has it processed. -/
def evaluate (x : Execution T) : Fuzzer T :=
  finalState (do processExecution initial x (← checkResults initial x)) f

/-! ### What a tree answers -/

/-- The history under each name has the same values, the initial one being understood past its
    end. -/
def SameView (h h' : Histories T) : Prop :=
  ∀ n i, (h' n).historyMap.getD i (initial n) = (h n).historyMap.getD i (initial n)

variable (h : Histories T)

/-- The indexes at which the map of the execution is novel. -/
def MapLeaf.found : List ℕ :=
  (((leaf.feedback initial).hits (leaf.observed x)).filter
    (novel (leaf.feedback initial) (h leaf.name).historyMap)).map Prod.snd

/-- The leaf after it has looked at the execution. -/
def MapLeaf.refresh : MapLeaf T :=
  { leaf with novelties := leaf.novelties.map fun _ => leaf.found initial x h }

def Tree.answer : Tree T → Except Error Bool
  | .map leaf => .ok (!(leaf.found initial x h).isEmpty)
  | .other id => x.interesting id
  | .not inner => (! ·) <$> answer inner
  | .combined logic first second => logic.isPairInteresting (answer first) (answer second)

/-- Whether the combinator asks its second feedback, given the answer of the first one. -/
def Logic.asks (logic : Logic) : Except Error Bool → Bool
  | .ok a => !logic.stops a
  | .error _ => false

/-- The tree after it has answered: the feedbacks that were asked hold the novelties of this
    execution. -/
def Tree.visit : Tree T → Tree T
  | .map leaf => .map (leaf.refresh initial x h)
  | .other id => .other id
  | .not inner => .not (visit inner)
  | .combined logic first second =>
    .combined logic (visit first)
      (if logic.asks (first.answer initial x h) then visit second else second)

variable {initial x h}

omit [DecidableEq ν] [∀ n, MapEntry (T n)] [∀ n, DecidableEq (T n)] in
theorem SameView.refl (h : Histories T) : SameView initial h h := fun _ _ => rfl

theorem getD_grow {α : Type} (s : MapFeedbackMetadata α) (len i : ℕ) (value : α) :
    (s.grow len value).historyMap.getD i value = s.historyMap.getD i value := by
  unfold MapFeedbackMetadata.grow
  split_ifs with hlt
  · rw [resizeWith, List.take_of_length_le hlt.le]
    by_cases hi : i < s.historyMap.length
    · rw [List.getD_append _ _ _ _ hi]
    · rw [List.getD_append_right _ _ _ _ (not_lt.mp hi), List.getD_eq_default _ _ (not_lt.mp hi)]
      simp
  · rfl

omit [∀ n, MapEntry (T n)] [∀ n, DecidableEq (T n)] in
theorem SameView.grow {h' : Histories T} (hview : SameView initial h h') (n : ν) (len : ℕ) :
    SameView initial h (update h' n ((h' n).grow len (initial n))) :=
  (forall_update_iff h' fun m s => ∀ i, s.historyMap.getD i (initial m) = (h m).historyMap.getD i (initial m)).mpr
    ⟨fun i => (getD_grow ..).trans (hview n i), fun m _ => hview m⟩

omit [DecidableEq ν] in
/-- A leaf only looks at the values of the history. -/
theorem isInterestingDefault_eq {h' : Histories T} (hview : SameView initial h h')
    (leaf : MapLeaf T) :
    isInterestingDefault (leaf.feedback initial) (leaf.observed x) ⟨leaf.novelties, h' leaf.name⟩ =
      (!(leaf.found initial x h).isEmpty, ⟨(leaf.refresh initial x h).novelties,
          (h' leaf.name).grow (leaf.observed x).length (initial leaf.name)⟩) := by
  have hnovel : novel (leaf.feedback initial)
      ((h' leaf.name).grow (leaf.observed x).length (initial leaf.name)).historyMap =
        novel (leaf.feedback initial) (h leaf.name).historyMap := by
    funext v
    have hvalue : ((h' leaf.name).grow (leaf.observed x).length (initial leaf.name)).historyMap.getD v.2
        (initial leaf.name) = (h leaf.name).historyMap.getD v.2 (initial leaf.name) :=
      (getD_grow _ _ _ _).trans (hview leaf.name v.2)
    simp only [novel, MapLeaf.feedback, hvalue]
  have hgrow : (leaf.feedback initial).initial = initial leaf.name := rfl
  rw [MapLeaf.refresh, MapLeaf.found, isInterestingDefault, hgrow, hnovel]
  cases leaf.novelties with
  | some _ => simp
  | none => simp [any_eq_not_isEmpty]

section
omit [DecidableEq ν] [∀ n, MapEntry (T n)] [∀ n, DecidableEq (T n)]

variable {check : Histories T → EStateM.Result Error (Tree T × Histories T) Bool} {h₀ h₁ : Histories T}
  {r : Except Error Bool} {t₀ t : Tree T} (heq : check h₀ = ofResult r (t, h₁)) (other : Tree T)
include heq

theorem onFirst_eq : onFirst check (t₀, other, h₀) = ofResult r (t, other, h₁) := by
  rw [onFirst, heq]
  cases r <;> rfl

theorem onSecond_eq : onSecond check (other, t₀, h₀) = ofResult r (other, t, h₁) := by
  rw [onSecond, heq]
  cases r <;> rfl

end

/-- What `is_interesting` returns and what it makes of the tree, the history being seen as it
    was. -/
theorem isInteresting_eq : ∀ (t : Tree T) {h' : Histories T}, SameView initial h h' →
    ∃ h'', SameView initial h h'' ∧ t.isInteresting initial x h' =
      ofResult (t.answer initial x h) (t.visit initial x h, h'')
  | .map leaf, h', hview => by
    refine ⟨_, hview.grow leaf.name (leaf.observed x).length, ?_⟩
    rw [Tree.isInteresting, isInterestingDefault_eq hview]
    rfl
  | .other id, h', hview => ⟨h', hview, rfl⟩
  | .not inner, h', hview => by
    obtain ⟨h'', hview'', heq⟩ := isInteresting_eq inner hview
    refine ⟨h'', hview'', ?_⟩
    rw [Tree.isInteresting, heq, Tree.answer, Tree.visit]
    cases inner.answer initial x h <;> rfl
  | .combined logic first second, h', hview => by
    obtain ⟨h₁, hview₁, heq₁⟩ := isInteresting_eq first hview
    obtain ⟨h₂, hview₂, heq₂⟩ := isInteresting_eq second hview₁
    rw [Tree.isInteresting, Tree.answer, Tree.visit, Logic.isPairInteresting_eq, Logic.isPairInteresting_eq]
    cases hfirst : first.answer initial x h with
    | error e =>
      refine ⟨h₁, hview₁, ?_⟩
      rw [hfirst] at heq₁
      rw [bind_error (onFirst_eq heq₁ second)]
      rfl
    | ok a =>
      rw [hfirst] at heq₁
      have hok : ∀ f : Bool → Except Error Bool, (Except.ok a >>= f) = f a := fun _ => rfl
      rw [bind_ok (onFirst_eq heq₁ second), hok, Logic.asks]
      cases logic.stops a with
      | true => exact ⟨h₁, hview₁, rfl⟩
      | false =>
        refine ⟨h₂, hview₂, ?_⟩
        rw [if_neg Bool.false_ne_true, if_neg Bool.false_ne_true,
          map_eq_ofResult (onSecond_eq heq₂ (first.visit initial x h))]
        cases second.answer initial x h <;> rfl

/-! ### The list that a testcase gets -/

/-- The last of the feedbacks that track novelties: its list is the one that a testcase keeps. -/
def Tree.writer : Tree T → Option (MapLeaf T)
  | .map leaf => if leaf.novelties.isSome then some leaf else none
  | .other _ => none
  | .not inner => inner.writer
  | .combined _ first second => second.writer <|> first.writer

variable (t : Tree T)

def Tree.pending : Option (List ℕ) := t.writer.bind (·.novelties)

variable (initial x h) in
/-- Whether the combinators ask that feedback in this execution. -/
def Tree.asked : Tree T → Bool
  | .map _ | .other _ => true
  | .not inner => inner.asked
  | .combined logic first second =>
    if second.writer.isSome then logic.asks (first.answer initial x h) && second.asked else first.asked

omit [DecidableEq ν] in
theorem writer_visit : (t.visit initial x h).writer =
    t.writer.map fun leaf => if t.asked initial x h then leaf.refresh initial x h else leaf := by
  induction t with
  | map leaf => cases hleaf : leaf.novelties <;> simp [Tree.visit, Tree.writer, Tree.asked,
      MapLeaf.refresh, hleaf]
  | other id => rfl
  | not inner ih => exact ih
  | combined logic first second ihfirst ihsecond =>
    rw [Tree.visit, Tree.writer, Tree.writer, Tree.asked]
    cases hsecond : second.writer with
    | none =>
      -- the second feedback has no say, whether it is asked or not
      have hnone : (if logic.asks (first.answer initial x h) then second.visit initial x h
          else second).writer = none := by
        split_ifs
        · rw [ihsecond, hsecond, Option.map_none]
        · exact hsecond
      rw [hnone, ihfirst]
      rfl
    | some leaf =>
      cases logic.asks (first.answer initial x h) with
      | false => simp [hsecond]
      | true =>
        rw [if_pos rfl, ihsecond, hsecond]
        rfl

omit [DecidableEq ν] [∀ n, MapEntry (T n)] [∀ n, DecidableEq (T n)] in
theorem novelties_of_writer {leaf : MapLeaf T} :
    ∀ {t : Tree T}, t.writer = some leaf → leaf.novelties.isSome
  | .map leaf', h => by
    rw [Tree.writer] at h
    split_ifs at h with hsome
    cases h
    exact hsome
  | .other _, h => by cases h
  | .not inner, h => novelties_of_writer (t := inner) h
  | .combined _ first second, h => by
    rw [Tree.writer] at h
    cases hsecond : second.writer with
    | none =>
      rw [hsecond] at h
      exact novelties_of_writer (t := first) h
    | some leaf' =>
      rw [hsecond] at h
      cases h
      exact novelties_of_writer hsecond

theorem appendMetadata_novelties {α : Type} [MapEntry α] [DecidableEq α] (fb : Feedback α)
    (map : List α) (fireFails : Bool) (w : World α) :
    Spec (MapFeedback.appendMetadata fb map fireFails) w
      (fun appended _ => appended.novelties = w.novelties) (fun _ _ => True) := by
  simp only [MapFeedback.appendMetadata, spec_bind, spec_get, spec_set, spec_zoom]
  refine spec_trivial.imp fun _ t _ => ?_
  split_ifs
  · trivial
  · trivial
  · rfl
  · rfl

theorem appendMetadata_pending : ∀ (t : Tree T) {s : Histories T × Testcase}
    {s' : Tree T × Histories T × Testcase}, t.appendMetadata initial x s = .ok () s' →
      s'.2.2.novelties = (t.pending <|> s.2.novelties)
  | .map leaf, (h, testcase), s', heq => by
    have hspec := appendMetadata_novelties (leaf.feedback initial) (leaf.observed x)
      (x.fireFails leaf.id) ⟨leaf.novelties, h leaf.name⟩
    rw [Tree.appendMetadata] at heq
    split at heq
    · next appended w happ =>
      cases heq
      have hnovelties : appended.novelties = leaf.novelties := hspec.ok happ
      rw [hnovelties, Tree.pending, Tree.writer]
      cases hleaf : leaf.novelties <;> simp [hleaf]
    · cases heq
  | .other id, s, s', heq => by
    rw [Tree.appendMetadata] at heq
    cases happ : x.appends id with
    | error e => rw [happ] at heq; cases heq
    | ok u => rw [happ] at heq; cases heq; rfl
  | .not inner, s, s', heq => by
    rw [Tree.appendMetadata] at heq
    split at heq
    · next happ =>
      cases heq
      have hinner := appendMetadata_pending inner happ
      exact hinner
    · cases heq
  | .combined logic first second, s, s', heq => by
    rw [Tree.appendMetadata] at heq
    split at heq
    · cases heq
    · next hfirst =>
      split at heq
      · next hsecond =>
        cases heq
        have hpending := appendMetadata_pending second hsecond
        rw [appendMetadata_pending first hfirst] at hpending
        rw [hpending, Tree.pending, Tree.pending, Tree.pending, Tree.writer]
        cases hwriter : second.writer with
        | none => rfl
        | some leaf =>
          obtain ⟨l, hl⟩ := Option.isSome_iff_exists.mp (novelties_of_writer hwriter)
          simp [hl]
      · cases heq

/-! ### One execution -/

variable (initial x) in
/-- The trees after the check: those that were asked have seen the execution. -/
structure Checked (f f' : Fuzzer T) (part : Part) : Prop where
  tree : f'.tree part = (f.tree part).visit initial x f.histories
  answer : (f.tree part).answer initial x f.histories = .ok true

variable (initial x) in
theorem interesting_eq (part : Part) (f : Fuzzer T) {t : Tree T} (ht : f.tree part = t)
    (hview : SameView initial h f.histories) :
    ∃ histories, SameView initial h histories ∧ interesting initial x part f =
      ofResult (t.answer initial x h)
        { f with tree := update f.tree part (t.visit initial x h), histories } := by
  obtain ⟨histories, hview', heq⟩ := isInteresting_eq (x := x) t hview
  refine ⟨histories, hview', ?_⟩
  rw [interesting, ht, heq]
  cases t.answer initial x h <;> rfl

/-- The part whose corpus an execution with this result goes to. -/
def ExecuteInputResult.part : ExecuteInputResult → Option Part
  | .none => .none
  | .corpus => some .feedback
  | .solution => some .objective

theorem checkResults_spec : Spec (checkResults initial x) f
    (fun r f' => (∀ part ∈ r.part, Checked initial x f f' part) ∧ f'.added = f.added)
    (fun _ f' => f'.added = f.added) := by
  obtain ⟨h₁, hview₁, hobjective⟩ :=
    interesting_eq initial x .objective f rfl (.refl f.histories)
  have hother : update f.tree .objective ((f.tree .objective).visit initial x f.histories)
      .feedback = f.tree .feedback := rfl
  obtain ⟨h₂, -, hfeedback⟩ := interesting_eq initial x .feedback { f with
    tree := update f.tree .objective ((f.tree .objective).visit initial x f.histories),
    histories := h₁ } hother hview₁
  rw [checkResults, spec_bind]
  unfold Spec
  rw [hobjective]
  cases hsolution : (f.tree .objective).answer initial x f.histories with
  | error e => exact rfl
  | ok isSolution =>
    cases isSolution with
    | true => exact ⟨fun part hpart => by cases hpart; exact ⟨rfl, hsolution⟩, rfl⟩
    | false =>
      show Spec (interesting initial x .feedback >>= _) _ _ _
      rw [spec_bind]
      unfold Spec
      rw [hfeedback]
      cases hworthy : (f.tree .feedback).answer initial x f.histories with
      | error e => exact rfl
      | ok corpusWorthy =>
        cases corpusWorthy with
        | true => exact ⟨fun part hpart => by cases hpart; exact ⟨rfl, hworthy⟩, rfl⟩
        | false => exact ⟨fun _ hpart => absurd hpart (by simp [ExecuteInputResult.part]), rfl⟩

/-- What the corpora gain: at most one testcase, with a list that the part `P` allows. -/
def Gains (P : Part → Testcase → Prop) (f f' : Fuzzer T) : Prop :=
  ∀ part, f'.added part = f.added part ∨
    ∃ testcase, f'.added part = f.added part ++ [testcase] ∧ P part testcase

variable {P : Part → Testcase → Prop}

theorem add_spec (part : Part) (f : Fuzzer T)
    (hP : ∀ testcase, testcase.novelties = (f.tree part).pending → P part testcase) :
    Spec (add initial x part) f (fun _ => Gains P f) (fun _ => Gains P f) := by
  rw [add, spec_bind]
  unfold Spec append
  cases happ : (f.tree part).appendMetadata initial x (f.histories, {}) with
  | error e s => exact fun _ => .inl rfl
  | ok u s =>
    have hnovelties : s.2.2.novelties = (f.tree part).pending := by
      rw [appendMetadata_pending _ happ]
      cases (f.tree part).pending <;> rfl
    show Spec (ofResult x.adds >>= fun _ => _) _ _ _
    simp only [spec_bind, spec_ofResult, spec_modify]
    refine ⟨fun _ _ part' => ?_, fun _ _ _ => .inl rfl⟩
    by_cases hpart : part' = part
    · subst hpart
      exact .inr ⟨s.2.2, update_self .., hP _ hnovelties⟩
    · exact .inl (update_of_ne hpart ..)

theorem processExecution_spec (r : ExecuteInputResult) (f : Fuzzer T)
    (hP : ∀ part ∈ r.part, ∀ testcase, testcase.novelties = (f.tree part).pending → P part testcase) :
    Spec (processExecution initial x r) f (fun _ => Gains P f) (fun _ => Gains P f) := by
  have hsame : Gains P f f := fun _ => .inl rfl
  cases r with
  | none =>
    simp only [processExecution, spec_bind, spec_get, spec_ofResult]
    exact ⟨fun _ _ => ⟨fun _ _ => hsame, fun _ _ => hsame⟩, fun _ _ => hsame⟩
  | corpus =>
    simp only [processExecution, spec_bind, spec_get, spec_ofResult]
    exact ⟨fun _ _ => (add_spec .feedback f (hP .feedback rfl)).mono
      (fun _ _ h => ⟨fun _ _ => h, fun _ _ => h⟩) fun _ _ h => h, fun _ _ => hsame⟩
  | solution =>
    simp only [processExecution, spec_bind, spec_get, spec_ofResult]
    exact ⟨fun _ _ => add_spec .objective f (hP .objective rfl), fun _ _ => hsame⟩

variable (initial) in
theorem evaluate_gains (x : Execution T) : Gains
    (fun part testcase => testcase.novelties = ((f.tree part).visit initial x f.histories).pending ∧
      (f.tree part).answer initial x f.histories = .ok true) f (evaluate initial f x) := by
  refine finalState_of_spec ?_
  rw [spec_bind]
  refine (checkResults_spec f).mono (fun r f₁ h₁ => ?_) fun _ f₁ h₁ part => .inl (congrFun h₁ part)
  obtain ⟨hchecked, hadded⟩ := h₁
  have hgains : ∀ P, Gains P f = Gains P f₁ := fun P => by
    unfold Gains
    rw [hadded]
  rw [hgains]
  refine processExecution_spec r f₁ fun part hpart testcase hnovelties => ?_
  rw [hnovelties, (hchecked part hpart).tree]
  exact ⟨rfl, (hchecked part hpart).answer⟩

/-! ### Every sequence of executions -/

variable (initial)

/-- The testcase lists only indexes at which the map of the execution is novel for the feedback that
    wrote the list. -/
def Tree.Belongs (x : Execution T) (h : Histories T) (testcase : Testcase) : Prop :=
  ∀ l, testcase.novelties = some l →
    ∃ leaf, t.writer = some leaf ∧ ∀ i ∈ l, i ∈ leaf.found initial x h

/-- The feedback that writes the list is asked, or what it has kept is novel once more. -/
def Tree.Current (x : Execution T) (h : Histories T) : Prop :=
  t.asked initial x h = false → ∀ leaf, t.writer = some leaf →
    ∀ l, leaf.novelties = some l → ∀ i ∈ l, i ∈ leaf.found initial x h

/-- The testcase that an execution adds, to the corpus or to the solutions, has novelties of its
    own. -/
def OwnNovelties (x : Execution T) : Prop :=
  ∀ part testcase, (evaluate initial f x).added part = f.added part ++ [testcase] →
    (f.tree part).Belongs initial x f.histories testcase

/-- If the execution adds a testcase, the list that waits for it is not one of an earlier
    execution. -/
def NoneWaiting (x : Execution T) : Prop :=
  ∀ part, (evaluate initial f x).added part ≠ f.added part →
    (f.tree part).Current initial x f.histories

variable {initial}

omit [DecidableEq ν] in
theorem belongs_iff {t : Tree T} {testcase : Testcase}
    (hnovelties : testcase.novelties = (t.visit initial x h).pending) :
    t.Belongs initial x h testcase ↔ t.Current initial x h := by
  rw [Tree.pending, writer_visit] at hnovelties
  constructor
  · intro hbelongs hasked leaf hleaf l hl
    rw [hleaf, hasked] at hnovelties
    obtain ⟨leaf', hleaf', hall⟩ := hbelongs l (hnovelties.trans hl)
    cases hleaf.symm.trans hleaf'
    exact hall
  · intro hcurrent l hl
    cases hleaf : t.writer with
    | none =>
      rw [hleaf, hl] at hnovelties
      cases hnovelties
    | some leaf =>
      refine ⟨leaf, rfl, ?_⟩
      rw [hleaf, hl] at hnovelties
      cases hasked : t.asked initial x h with
      | false =>
        rw [hasked] at hnovelties
        exact hcurrent hasked leaf hleaf l hnovelties.symm
      | true =>
        -- the list is the one found in this execution
        rw [hasked] at hnovelties
        obtain ⟨_, _, hfound⟩ := Option.map_eq_some_iff.mp hnovelties.symm
        rw [hfound]
        exact fun i hi => hi

/-- The testcases that a list of testcases has gained, as far as it has. -/
theorem gained_iff {tcs tcs' : List Testcase} {P B : Testcase → Prop} {C : Prop}
    (hgain : tcs' = tcs ∨ ∃ testcase, tcs' = tcs ++ [testcase] ∧ P testcase)
    (hiff : ∀ testcase, P testcase → (B testcase ↔ C)) :
    (∀ testcase, tcs' = tcs ++ [testcase] → B testcase) ↔ (tcs' ≠ tcs → C) := by
  rcases hgain with rfl | ⟨testcase, rfl, hnovelties⟩
  · simp
  · simp [hiff testcase hnovelties]

theorem ownNovelties_iff (x : Execution T) :
    OwnNovelties initial f x ↔ NoneWaiting initial f x := by
  have hgains := evaluate_gains initial f x
  exact forall_congr' fun part => gained_iff (hgains part) fun _ h => belongs_iff h.1

/-- In every sequence of executions, the testcases list novelties of their own executions exactly if
    no testcase is added while a list of an earlier execution waits in a feedback that is not
    asked. -/
theorem novelties_belong_iff (initial : ∀ n, T n) (f₀ : Fuzzer T) (xs : List (Execution T)) :
    (∀ n x, xs[n]? = some x → OwnNovelties initial (run (evaluate initial) f₀ (xs.take n)) x) ↔
      Along (evaluate initial) (NoneWaiting initial) f₀ xs := by
  rw [along_iff_forall_getElem?]
  simp only [ownNovelties_iff]

/-- A feedback that is left out: `FastOr (other, FastAnd (map, other))` over a map of bytes. -/
def guarded : Fuzzer fun _ : Unit => UInt8 where
  tree
    | .feedback => .combined .fastOr (.other 0) (.combined .fastAnd
      (.map ⟨(), 0, 0, .max, fun old new => old != new, false, some []⟩) (.other 1))
    | .objective => .other 2
  histories := fun _ => {}

/-- The map is novel at its first index, and no feedback finds that interesting. -/
def rejected : Execution fun _ : Unit => UInt8 :=
  { maps := fun _ _ => [1, 0], interesting := fun _ => .ok false }

/-- The map is empty, and the first feedback is interested. -/
def accepted : Execution fun _ : Unit => UInt8 :=
  { maps := fun _ _ => [0, 0], interesting := fun id => .ok (id = 0) }

/-- The accepted testcase gets the novelty of the rejected execution. -/
theorem rejected_novelties_attached :
    (run (evaluate fun _ => 0) guarded [rejected, accepted]).added .feedback = [⟨some [0]⟩] ∧
      ¬OwnNovelties (fun _ => 0) (run (evaluate fun _ => 0) guarded [rejected]) accepted := by
  have hcorpus : (run (evaluate fun _ => 0) guarded [rejected, accepted]).added .feedback = [⟨some [0]⟩] := by
    decide +kernel
  refine ⟨hcorpus, fun hown => ?_⟩
  have hfound : ((run (evaluate fun _ => 0) guarded [rejected]).tree .feedback).writer.map
      (fun leaf => leaf.found (fun _ => 0) accepted
        (run (evaluate fun _ => 0) guarded [rejected]).histories) = some [] := by
    decide +kernel
  have hbefore : (run (evaluate fun _ => 0) guarded [rejected]).added .feedback = [] := by decide +kernel
  obtain ⟨leaf, hleaf, hall⟩ := hown .feedback ⟨some [0]⟩ (by rw [hbefore]; exact hcorpus) [0] rfl
  rw [hleaf, Option.map_some] at hfound
  have hmem := hall 0 List.mem_cons_self
  rw [Option.some.inj hfound] at hmem
  cases hmem

/-! ### Eager combinators -/

/-- A tree without fast combinators. -/
def Tree.Eager : Tree T → Prop
  | .map _ | .other _ => True
  | .not inner => inner.Eager
  | .combined logic first second => (∀ a, logic.stops a = false) ∧ first.Eager ∧ second.Eager

omit [DecidableEq ν] in
theorem asked_of_eager : ∀ {t : Tree T}, t.Eager → ∀ {b : Bool}, t.answer initial x h = .ok b →
    t.asked initial x h = true
  | .map _, _, _, _ => rfl
  | .other _, _, _, _ => rfl
  | .not inner, heager, b, hb => by
    rw [Tree.answer] at hb
    cases hinner : inner.answer initial x h with
    | error e => rw [hinner] at hb; cases hb
    | ok a => exact asked_of_eager (t := inner) heager hinner
  | .combined logic first second, ⟨hlogic, heager₁, heager₂⟩, b, hb => by
    rw [Tree.answer, Logic.isPairInteresting_eq] at hb
    cases hfirst : first.answer initial x h with
    | error e => rw [hfirst] at hb; cases hb
    | ok a =>
      rw [Tree.asked, hfirst, Logic.asks, hlogic]
      split_ifs
      · cases hsecond : second.answer initial x h with
        | error e =>
          rw [hfirst, hsecond] at hb
          simp only [bind, Except.bind, hlogic] at hb
          cases hb
        | ok c => exact asked_of_eager heager₂ hsecond
      · exact asked_of_eager heager₁ hfirst

/-- Without fast combinators no testcase gets the novelties of another execution. -/
theorem ownNovelties_of_eager {f : Fuzzer T} (heager : ∀ part, (f.tree part).Eager)
    (x : Execution T) : OwnNovelties initial f x := by
  refine (ownNovelties_iff f x).mpr fun part hne hasked => ?_
  rcases evaluate_gains initial f x part with hsame | ⟨testcase, _, _, hok⟩
  · exact absurd hsame hne
  · rw [asked_of_eager (heager part) hok] at hasked
    cases hasked

/-- `EagerOr (other, map)` for both. -/
def eager : Fuzzer fun _ : Unit => UInt8 where
  tree _ := .combined .eagerOr (.other 0)
    (.map ⟨(), 0, 0, .max, fun old new => old != new, false, some [7]⟩)
  histories _ := {}

theorem eager_ownNovelties : OwnNovelties (fun _ => 0) eager accepted := by
  have heager : ∀ part, (eager.tree part).Eager := fun _ => ⟨fun _ => rfl, trivial, trivial⟩
  exact ownNovelties_of_eager heager accepted

end Bofuzz.FeedbackTree
