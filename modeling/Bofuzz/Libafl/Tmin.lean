import Bofuzz.Lib.Effect
import Bofuzz.Libafl.BytesSwap
import Mathlib.Data.Prod.Lex

/-! Minimising a testcase (`perform_minification` of `libafl/src/stages/tmin.rs`).

    A shorter input that the feedback accepts replaces the base and starts the count of runs anew,
    so that length and count together decrease. A mutation that is skipped changes neither of them.

    Each round lowers the limit on the size of inputs to the length of its base; the statement that
    puts the old limit back stands behind all that can fail. `round_spec` says what a round can do
    to the variables and to the limit; the rest follows from it. -/

namespace Bofuzz.Tmin
open Effect BytesSwap Relation

/-- What the stage calls. `σ` is all that the calls can change: the state without the limit, the
    fuzzer, the executor, the manager, the mutator and the feedback. -/
structure Calls (σ ε T I P X : Type) where
  /-- Check the progress, from which `num` comes. -/
  progress : EStateM ε σ Unit
  /-- Load the base and run it. -/
  loadBase : EStateM ε σ I
  mutate : T → EStateM ε σ (MutationResult × T)
  tryTransformInto : T → EStateM ε σ (I × P)
  executeInput : I → EStateM ε σ X
  evaluateExecution : I → X → EStateM ε σ (Option ℕ)
  isInteresting : I → X → EStateM ε σ Bool
  mutatorPostExec : Option ℕ → EStateM ε σ Unit
  postExec : P → Option ℕ → EStateM ε σ Unit
  /-- Run the new base and put it in the place of the entry. -/
  replaceEntry : I → Option P → EStateM ε σ Unit

/-- A call of the stage. -/
structure Stage (σ ε T I P X : Type) where
  /-- The number of runs, `num`. -/
  num : ℕ
  transformed : T
  len : I → ℕ
  hash : I → UInt64
  /-- The sizes of the corpus and of the solutions. -/
  counts : σ → ℕ × ℕ
  /-- The calls, under a limit on the size of inputs, which they read and do not set. -/
  calls : ℕ → Calls σ ε T I P X

/-- The limit, `max_size`, and all the rest. -/
structure World (σ : Type) where
  maxSize : ℕ
  rest : σ

/-- The variables of the loop. -/
structure Vars (I P : Type) where
  base : I
  basePost : Option P
  i : ℕ

namespace Stage
variable {σ ε T I P X α β : Type} (c : Stage σ ε T I P X)

def call (f : Calls σ ε T I P X → EStateM ε σ α) : EStateM ε (World σ) α := do
  let w ← get
  zoom World.rest (fun w s => { w with rest := s }) (f (c.calls w.maxSize))

def setMaxSize (n : ℕ) : EStateM ε (World σ) Unit := modify fun w => { w with maxSize := n }

/-- The variables after a run of `input`, and the entry the fuzzer made of it. -/
def runInput (v : Vars I P) (input : I) (post : P) : EStateM ε (World σ) (Vars I P × Option ℕ) := do
  if c.len input < c.len v.base then
    let exitKind ← c.call (·.executeInput input)
    let before := c.counts (← get).rest
    let corpusId ← c.call (·.evaluateExecution input exitKind)
    if c.counts (← get).rest = before then
      if ← c.call (·.isInteresting input exitKind) then
        return ({ base := input, basePost := some post, i := 0 }, corpusId)
      else return ({ v with i := v.i + 1 }, corpusId)
    else return ({ v with i := v.i + 1 }, corpusId)
  else return ({ v with i := v.i + 1 }, none)

/-- A round of the loop. -/
def round (v : Vars I P) : EStateM ε (World σ) (Vars I P) := do
  setMaxSize (c.len v.base)
  let (result, inputTransformed) ← c.call (·.mutate c.transformed)
  if result = .skipped then return v
  else
    let (input, post) ← c.call (·.tryTransformInto inputTransformed)
    let (v', corpusId) ← c.runInput v input post
    c.call (·.mutatorPostExec corpusId)
    c.call (·.postExec post corpusId)
    return v'

/-- The loop; no answer if the rounds that are allowed for do not suffice. -/
def loop : ℕ → Vars I P → EStateM ε (World σ) (Option (Vars I P))
  | 0, _ => return none
  | fuel + 1, v => do
    if v.i < c.num then
      let v' ← c.round v
      loop fuel v'
    else return some v

/-- `perform_minification`. -/
def performMinification (fuel : ℕ) : EStateM ε (World σ) (Option Unit) := do
  let origMaxSize := (← get).maxSize
  c.call (·.progress)
  if c.num = 0 then return some ()
  else
    let base ← c.call (·.loadBase)
    match ← c.loop fuel ⟨base, none, 0⟩ with
    | none => return none
    | some v =>
      if c.hash base ≠ c.hash v.base then c.call (·.replaceEntry v.base v.basePost)
      setMaxSize origMaxSize
      return some ()

/-- A round of the loop, from variables and a world to variables and a world. -/
def Step (x y : Vars I P × World σ) : Prop := x.1.i < c.num ∧ c.round x.1 x.2 = .ok y.1 y.2

variable (x : Vars I P × World σ)

/-- After finitely many rounds the loop is left, by its test or with an error. -/
def Terminates : Prop := Acc (fun z y => c.Step y z) x

/-- The world in which a round calls. -/
def lowered : World σ := { x.2 with maxSize := c.len x.1.base }

/-- The mutator skips in the round that starts here. -/
def Skips : Prop :=
  ∃ t w', c.call (·.mutate c.transformed) (c.lowered x) = .ok (.skipped, t) w'

/-- Wherever the loop has runs left, there is a round to come in which the mutator does not skip. -/
def KeepsMutating : Prop :=
  ∀ y, ReflTransGen c.Step x y → y.1.i < c.num → ∃ z, ReflTransGen c.Step y z ∧ ¬ c.Skips z

/-! ### One round -/

/-- A run from `w`, in which the fuzzer keeps the input neither as an entry nor as a solution and
    the feedback takes it. -/
def Takes (w : World σ) (input : I) : Prop :=
  ∃ exitKind corpusId w₁ w₂ w₃, c.call (·.executeInput input) w = .ok exitKind w₁ ∧
    c.call (·.evaluateExecution input exitKind) w₁ = .ok corpusId w₂ ∧
    c.counts w₂.rest = c.counts w₁.rest ∧
    c.call (·.isInteresting input exitKind) w₂ = .ok true w₃

/-- The round that starts here makes a shorter input, with its post operation, and takes it. -/
def Accepts (input : I) (post : P) : Prop :=
  c.len input < c.len x.1.base ∧ ∃ t w₁ w₂,
    c.call (·.mutate c.transformed) (c.lowered x) = .ok (.mutated, t) w₁ ∧
    c.call (·.tryTransformInto t) w₁ = .ok (input, post) w₂ ∧ c.Takes w₂ input

/-- What a round can do to the variables. -/
inductive Outcome : Vars I P → Prop
  | skipped (h : c.Skips x) : Outcome x.1
  | counted : Outcome { x.1 with i := x.1.i + 1 }
  | accepted {input post} (h : c.Accepts x input post) : Outcome ⟨input, some post, 0⟩

variable {c} {v : Vars I P} {w : World σ} {m : ℕ} {f : Calls σ ε T I P X → EStateM ε σ α}

/-- A call leaves the limit as it is, whether it fails or not. -/
theorem spec_call : Spec (c.call f) w (fun a w' => c.call f w = .ok a w' ∧ w'.maxSize = w.maxSize)
    fun e w' => c.call f w = .error e w' ∧ w'.maxSize = w.maxSize := by
  refine Spec.returned (Q := fun _ w' => _) (E := fun _ w' => _) ?_
  rw [call, spec_bind, spec_get, spec_zoom]
  exact spec_trivial.mono (fun _ _ _ => rfl) fun _ _ _ => rfl

theorem spec_call_bind {g : α → EStateM ε (World σ) β}
    {Q : β → World σ → Prop} (hw : w.maxSize = m)
    (h : ∀ a w', w'.maxSize = m → c.call f w = .ok a w' → Spec (g a) w' Q fun _ w' => w'.maxSize = m) :
    Spec (c.call f >>= g) w Q fun _ w' => w'.maxSize = m := by
  rw [spec_bind]
  exact spec_call.mono (fun a w' ha => h a w' (ha.2.trans hw) ha.1) fun _ _ he => he.2.trans hw

theorem runInput_spec (hw : w.maxSize = m) (input : I) (post : P) :
    Spec (c.runInput v input post) w (fun r w' => w'.maxSize = m ∧
      (r.1 = { v with i := v.i + 1 } ∨
        r.1 = ⟨input, some post, 0⟩ ∧ c.len input < c.len v.base ∧ c.Takes w input))
      fun _ w' => w'.maxSize = m := by
  unfold runInput
  split_ifs with hlen
  · refine spec_call_bind hw fun exitKind w₁ hw₁ hrun => ?_
    rw [spec_bind, spec_get]
    refine spec_call_bind hw₁ fun corpusId w₂ hw₂ hevaluate => ?_
    rw [spec_bind, spec_get]
    split_ifs with hcounts
    · refine spec_call_bind hw₂ fun interesting w₃ hw₃ hinteresting => ?_
      cases interesting with
      | true => exact ⟨hw₃, .inr ⟨rfl, hlen, _, _, _, _, _, hrun, hevaluate, hcounts, hinteresting⟩⟩
      | false => exact ⟨hw₃, .inl rfl⟩
    · exact ⟨hw₂, .inl rfl⟩
  · exact ⟨hw, .inl rfl⟩

/-- A round lowers the limit to the length of its base, and it skips, counts a run or accepts. -/
theorem round_spec (v : Vars I P) (w : World σ) :
    Spec (c.round v) w (fun v' w' => w'.maxSize = c.len v.base ∧ c.Outcome (v, w) v')
      fun _ w' => w'.maxSize = c.len v.base := by
  unfold round setMaxSize
  rw [spec_bind, spec_modify]
  refine spec_call_bind rfl fun r w₁ hw₁ hmutate => ?_
  obtain ⟨result, t⟩ := r
  cases result with
  | skipped => exact ⟨hw₁, .skipped ⟨t, w₁, hmutate⟩⟩
  | mutated =>
    refine spec_call_bind hw₁ fun r w₂ hw₂ htransform => ?_
    obtain ⟨input, post⟩ := r
    rw [spec_bind]
    refine (runInput_spec hw₂ input post).imp fun r w₃ hr => ?_
    refine spec_call_bind hr.1 fun _ w₄ hw₄ _ => spec_call_bind hw₄ fun _ w₅ hw₅ _ => ⟨hw₅, ?_⟩
    rcases hr.2 with heq | ⟨heq, hlen, htakes⟩
    · rw [heq]
      exact .counted
    · rw [heq]
      exact .accepted ⟨hlen, t, w₁, w₂, hmutate, htransform, htakes⟩

/-- What gets smaller: the length of the base, and for a base the runs that are left. -/
def size (c : Stage σ ε T I P X) (v : Vars I P) : ℕ ×ₗ ℕ := toLex (c.len v.base, c.num - v.i)

variable {x y z : Vars I P × World σ}

theorem Step.outcome (h : c.Step x y) : c.Outcome x y.1 := ((round_spec x.1 x.2).ok h.2).2

theorem round_of_skips (h : c.Skips x) : ∃ w', c.round x.1 x.2 = .ok x.1 w' := by
  obtain ⟨t, w', h⟩ := h
  exact ⟨w', bind_ok h⟩

theorem Step.size_lt (h : c.Step x y) (hskip : ¬ c.Skips x) : c.size y.1 < c.size x.1 := by
  obtain ⟨v, w⟩ := y
  rw [size, size, Prod.Lex.toLex_lt_toLex]
  cases h.outcome with
  | skipped hskips => exact absurd hskips hskip
  | counted => exact .inr ⟨rfl, Nat.sub_succ_lt_self _ _ h.1⟩
  | accepted haccepts => exact .inl haccepts.1

theorem Step.size_le (h : c.Step x y) : c.size y.1 ≤ c.size x.1 := by
  by_cases hskip : c.Skips x
  · obtain ⟨w', hround⟩ := round_of_skips hskip
    rw [(EStateM.Result.ok.inj (h.2.symm.trans hround)).1]
  · exact (h.size_lt hskip).le

theorem Step.unique (h : c.Step x y) (h' : c.Step x z) : y = z := by
  obtain ⟨hv, hw⟩ := EStateM.Result.ok.inj (h.2.symm.trans h'.2)
  exact Prod.ext hv hw

/-! ### Runs of the loop -/

theorem size_le_of_run (h : ReflTransGen c.Step x y) : c.size y.1 ≤ c.size x.1 := by
  induction h with
  | refl => rfl
  | tail _ hstep ih => exact hstep.size_le.trans ih

/-- The loop goes on in one way only. -/
theorem terminates_of_run (h : ReflTransGen c.Step x y) (hend : c.Terminates y) :
    c.Terminates x := by
  induction h using ReflTransGen.head_induction_on with
  | refl => exact hend
  | head hstep _ ih => exact ⟨_, fun z hz => by rw [← hstep.unique hz]; exact ih⟩

theorem terminates_of_keepsMutating (h : c.KeepsMutating x) : c.Terminates x := by
  -- on the size; the rounds that are skipped before the next one that is not leave it as it is
  induction hk : c.size x.1 using WellFoundedLT.induction generalizing x with
  | ind k ih =>
    by_cases hi : x.1.i < c.num
    · obtain ⟨y, hrun, hskip⟩ := h x .refl hi
      refine terminates_of_run hrun ⟨_, fun z hz => ih (c.size z.1) ?_ (fun w hw => ?_) rfl⟩
      · rw [← hk]
        exact (hz.size_lt hskip).trans_le (size_le_of_run hrun)
      · exact h w ((hrun.tail hz).trans hw)
    · exact ⟨_, fun z hz => absurd hz.1 hi⟩

theorem not_terminates_of_skips (hi : x.1.i < c.num)
    (hskips : ∀ y, ReflTransGen c.Step x y → c.Skips y) : ¬ c.Terminates x := by
  intro h
  induction h with
  | intro x _ ih =>
    obtain ⟨w', hround⟩ := round_of_skips (hskips x .refl)
    have hstep : c.Step x (x.1, w') := ⟨hi, hround⟩
    exact ih _ hstep hi fun y hy => hskips y (.head hstep hy)

theorem Terminates.of_run (h : c.Terminates x) (hrun : ReflTransGen c.Step x y) :
    c.Terminates y := by
  induction hrun with
  | refl => exact h
  | tail _ hstep ih => exact ih.inv hstep

/-- The loop terminates exactly if the mutator never starts to skip for good while there are runs
    left: a round that is skipped is not counted. -/
theorem terminates_iff_keepsMutating (c : Stage σ ε T I P X) (v : Vars I P) (w : World σ) :
    c.Terminates (v, w) ↔ c.KeepsMutating (v, w) := by
  refine ⟨fun h y hrun hi => ?_, terminates_of_keepsMutating⟩
  by_contra hstuck
  push Not at hstuck
  exact not_terminates_of_skips hi hstuck (h.of_run hrun)

/-! ### The limit -/

/-- The variables with which the loop begins its last round, if it begins one. -/
def lastOf (c : Stage σ ε T I P X) : ℕ → Vars I P → World σ → Option (Vars I P)
  | 0, _, _ => none
  | fuel + 1, v, w =>
    if v.i < c.num then
      match c.round v w with
      | .ok v' w' => (lastOf c fuel v' w').or (some v)
      | .error _ _ => some v
    else none

/-- The variables with which a call that is entered in `w` begins its last round, if it begins
    one. -/
def lastRound (c : Stage σ ε T I P X) (fuel : ℕ) (w : World σ) : Option (Vars I P) :=
  match c.call (·.progress) w with
  | .error _ _ => none
  | .ok _ w₁ =>
    if c.num = 0 then none
    else
      match c.call (·.loadBase) w₁ with
      | .error _ _ => none
      | .ok base w₂ => c.lastOf fuel ⟨base, none, 0⟩ w₂

/-- The length of the base of a round. -/
def cut (c : Stage σ ε T I P X) (u : Option (Vars I P)) : Option ℕ := u.map fun u => c.len u.base

/-- A call that is entered in `w` and left in another world, by returning, or by an error or a
    crash, which is an error of the call it happens in. In the second case the length of the base is
    given with which it began its last round, if it had begun one. -/
inductive Ends (c : Stage σ ε T I P X) (w : World σ) : Option ℕ → World σ → Prop
  | returns {fuel w'} (h : c.performMinification fuel w = .ok (some ()) w') : Ends c w none w'
  | fails {fuel e w'} (h : c.performMinification fuel w = .error e w') :
      Ends c w (c.cut (c.lastRound fuel w)) w'

/-- One call after the other, each on the limit that the one before left, as after a crash. -/
inductive Resumed : ℕ → List (Stage σ ε T I P X × Option ℕ) → ℕ → Prop
  | nil (m : ℕ) : Resumed m [] m
  | cons {m c s cut w' calls m'} (h : Ends c ⟨m, s⟩ cut w') (hrest : Resumed w'.maxSize calls m') :
      Resumed m ((c, cut) :: calls) m'

/-- The loop leaves the limit of its last round. -/
theorem loop_limit (fuel : ℕ) (v : Vars I P) (w : World σ) : Spec (c.loop fuel v) w
    (fun _ w' => w'.maxSize = (c.cut (c.lastOf fuel v w)).getD w.maxSize)
    fun _ w' => w'.maxSize = (c.cut (c.lastOf fuel v w)).getD w.maxSize := by
  induction fuel generalizing v w with
  | zero => exact rfl
  | succ fuel ih =>
    rw [loop, lastOf]
    split_ifs with hi
    · rw [spec_bind]
      refine (round_spec v w).returned.mono (fun v' w' hround => ?_) fun e w' hround => ?_
      · rw [hround.1]
        have hlimit : (c.cut ((c.lastOf fuel v' w').or (some v))).getD w.maxSize =
            (c.cut (c.lastOf fuel v' w')).getD w'.maxSize := by
          rw [hround.2.1]
          cases c.lastOf fuel v' w' <;> rfl
        simp only [hlimit]
        exact ih v' w'
      · rw [hround.1]
        exact hround.2
    · exact rfl

/-- Returning puts the limit back; an error leaves that of the last round. -/
theorem performMinification_spec (fuel : ℕ) (w : World σ) : Spec (c.performMinification fuel) w
    (fun r w' => r = some () → w'.maxSize = w.maxSize)
    fun _ w' => w'.maxSize = (c.cut (c.lastRound fuel w)).getD w.maxSize := by
  unfold performMinification
  rw [spec_bind, spec_get, spec_bind]
  refine spec_call.mono (fun _ w₁ hprogress => ?_) fun e w' herror => ?_
  · split_ifs with hnum
    · exact fun _ => hprogress.2
    rw [spec_bind]
    refine spec_call.mono (fun base w₂ hload => ?_) fun e w' herror => ?_
    · have hlast : c.lastRound fuel w = c.lastOf fuel ⟨base, none, 0⟩ w₂ := by
        simp only [lastRound, hprogress.1, hnum, hload.1, if_false]
      rw [hlast, ← hprogress.2, ← hload.2, spec_bind]
      refine (loop_limit fuel _ w₂).mono (fun r w₃ hlimit => ?_) fun _ _ hlimit => hlimit
      cases r with
      | none => exact nofun
      | some v =>
        dsimp only
        split_ifs
        · rw [spec_bind]
          exact spec_call.mono (fun _ _ _ _ => rfl) fun _ _ herror => herror.2.trans hlimit
        · exact fun _ => rfl
    · simp only [lastRound, hprogress.1, hnum, herror.1, if_false]
      exact herror.2.trans hprogress.2
  · simp only [lastRound, herror.1]
    exact herror.2

theorem Ends.limit_eq {cut : Option ℕ} {w' : World σ} (h : c.Ends w cut w') :
    w'.maxSize = cut.getD w.maxSize := by
  cases h with
  | returns h => exact (performMinification_spec _ w).ok h rfl
  | fails h => exact (performMinification_spec _ w).error h

section
variable {m' : ℕ} {calls : List (Stage σ ε T I P X × Option ℕ)}

theorem Resumed.limit_eq (h : Resumed m calls m') :
    m' = (calls.filterMap (·.2)).getLast?.getD m := by
  induction h with
  | nil m => rfl
  | @cons m c s cut w' calls m' h _ ih =>
    rw [ih, h.limit_eq]
    cases cut with
    | none => rfl
    | some l => exact congrArg (·.getD m) List.getLast?_cons.symm

/-- In the end the limit is the first one just if no call ended after it had begun a round, or the
    last one that did began its last round with a base of that length. -/
theorem limit_kept_iff (h : Resumed m calls m') :
    m' = m ↔ ∀ l ∈ (calls.filterMap (·.2)).getLast?, l = m := by
  rw [h.limit_eq]
  cases (calls.filterMap (·.2)).getLast? with
  | none | some => simp

end

/-! ### What replaces the entry -/

/-- The call that is entered in `w` loads `base` and the loop gets here. -/
def Reaches (c : Stage σ ε T I P X) (w : World σ) (base : I) (x : Vars I P × World σ) : Prop :=
  ∃ w₁ w₂, c.call (·.progress) w = .ok () w₁ ∧ c.num ≠ 0 ∧ c.call (·.loadBase) w₁ = .ok base w₂ ∧
    ReflTransGen c.Step (⟨base, none, 0⟩, w₂) x

/-- Variables with another base than at the start have that of the last round that accepted one. -/
theorem accepted_of_run (h : ReflTransGen c.Step x y) : y.1.base = x.1.base ∨
    ∃ post x' z, y.1.basePost = some post ∧ ReflTransGen c.Step x x' ∧ c.Step x' z ∧
      c.Accepts x' y.1.base post ∧ z.1 = ⟨y.1.base, some post, 0⟩ ∧ ReflTransGen c.Step z y := by
  induction h with
  | refl => exact .inl rfl
  | @tail y y' hrun hstep ih =>
    obtain ⟨v', w'⟩ := y'
    cases hstep.outcome with
    | accepted haccepts => exact .inr ⟨_, y, _, rfl, hrun, hstep, haccepts, rfl, .refl⟩
    | _ =>
      rcases ih with heq | ⟨post, x', z, hpost, hx, hz, haccepts, hset, hrest⟩
      · exact .inl heq
      · exact .inr ⟨post, x', z, hpost, hx, hz, haccepts, hset, hrest.tail hstep⟩

/-- The entry is replaced only by a shorter input that a round of this run made, ran and accepted,
    and then the post operation that came with it is there. -/
theorem replacement_accepted {base : I} {w' : World σ} (h : c.Reaches w base (v, w'))
    (hhash : c.hash base ≠ c.hash v.base) : c.len v.base < c.len base ∧
      ∃ post x z, v.basePost = some post ∧ c.Reaches w base x ∧ c.Step x z ∧
        c.Accepts x v.base post ∧ z.1 = ⟨v.base, some post, 0⟩ ∧ ReflTransGen c.Step z (v, w') := by
  obtain ⟨w₁, w₂, hprogress, hnum, hload, hrun⟩ := h
  rcases accepted_of_run hrun with heq | ⟨post, x, z, hpost, hx, hstep, haccepts, hset, hrest⟩
  · exact absurd (congrArg c.hash heq.symm) hhash
  have hle : c.len x.1.base ≤ c.len base := by
    rcases Prod.Lex.toLex_le_toLex.mp (size_le_of_run hx) with hlt | ⟨heq, -⟩
    · exact hlt.le
    · exact heq.le
  exact ⟨haccepts.1.trans_le hle, post, x, z, hpost, ⟨w₁, w₂, hprogress, hnum, hload, hx⟩, hstep,
    haccepts, hset, hrest⟩

end Stage

/-! ### A mutator that skips short inputs -/

/-- `BytesDeleteMutator::mutate`. -/
def bytesDelete {R : Type} [Rand R] (data : Bytes) : StateM R (MutationResult × Bytes) := do
  if data.length ≤ 2 then return (.skipped, data)
  else
    let range ← randRange data.length (data.length - 1)
    return (.mutated, data.take range.start ++ data.drop range.stop)

/-- Minimising bytes by deletions, with a target that every input is as good for. -/
def deleting : Stage (List UInt64) Unit Bytes Bytes Unit Unit where
  num := 1
  transformed := [0]
  len := List.length
  hash _ := 0
  counts _ := (1, 0)
  calls _ :=
    { progress := pure ()
      loadBase := pure [0]
      mutate data := modifyGet (bytesDelete data)
      tryTransformInto data := pure (data, ())
      executeInput _ := pure ()
      evaluateExecution _ _ := pure none
      isInteresting _ _ := pure true
      mutatorPostExec _ := pure ()
      postExec _ _ := pure ()
      replaceEntry _ _ := pure () }

/-- A single run on an input of one byte. -/
theorem one_byte_never_minified : ¬ deleting.Terminates (⟨[0], none, 0⟩, ⟨1, []⟩) := by
  intro h
  generalize hx : ((⟨[0], none, 0⟩, ⟨1, []⟩) : Vars Bytes Unit × World (List UInt64)) = x at h
  induction h with
  | intro x _ ih =>
    subst hx
    exact ih _ ⟨by decide, rfl⟩ rfl

/-- Three bytes of which one is deleted. -/
def shortening : Stage (List UInt64) Unit Bytes Bytes Unit Unit :=
  { deleting with
    transformed := [0, 0, 0]
    hash := fun d => .ofNat d.length
    calls := fun m => { deleting.calls m with loadBase := pure [0, 0, 0] } }

theorem shortening_replaces : [0, 0].length < 3 ∧ ∃ x, shortening.Reaches ⟨9, []⟩ [0, 0, 0] x ∧
    shortening.Accepts x [0, 0] () := by
  have hreaches : shortening.Reaches ⟨9, []⟩ [0, 0, 0] (⟨[0, 0], some (), 0⟩, ⟨3, []⟩) :=
    ⟨_, _, rfl, by decide, rfl, .single ⟨by decide, rfl⟩⟩
  obtain ⟨hlen, post, x, z, -, hx, -, haccepts, -⟩ :=
    Stage.replacement_accepted hreaches (by decide)
  exact ⟨hlen, x, hx, haccepts⟩

/-! ### A mutator that fails -/

def failing : Stage (List UInt64) Unit Bytes Bytes Unit Unit :=
  { deleting with calls := fun m => { deleting.calls m with mutate := fun _ => throw () } }

theorem failing_ends (m : ℕ) : failing.Ends ⟨m, []⟩ (some 1) ⟨1, []⟩ := by
  have hfails : failing.performMinification 1 ⟨m, []⟩ = .error () ⟨1, []⟩ := rfl
  exact .fails hfails

/-- A limit of one byte. -/
theorem limit_kept_demo : 1 = 1 ↔ ∀ l ∈ ([(failing, some 1)].filterMap (·.2)).getLast?, l = 1 :=
  Stage.limit_kept_iff (.cons (failing_ends 1) (.nil 1))

/-- The limit before the error was ten bytes. -/
theorem limit_lost_with_error : Stage.Resumed 10 [(failing, some 1)] 1 :=
  .cons (failing_ends 10) (.nil 1)

end Bofuzz.Tmin
