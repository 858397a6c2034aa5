import Bofuzz.Libafl.StageTrace

/-! Resuming nested stages after crashes.

    What a crash leaves in the stage stack is the position of the leaf in which it happened, level
    by level. `Stage.At` says which lists of ids are such positions, and `Stage.resume` continues
    the meaning of a stage from one of them. A run of the code follows the meaning up to its crash,
    and the rest of the meaning is its continuation from the position that the crash leaves
    (`Sim`). -/

namespace Bofuzz.Nested
open Effect Rounds List Nested.Stage Stages StageStack

variable {L C : Type}

/-! ### Positions -/

mutual

/-- The ids below a stage are those of a leaf in it. -/
def Stage.At : Stage L C → List ℕ → Prop
  | .leaf _, ks => ks = []
  | .whileStage _ stages, ks => stages.At ks
  | .ifStage _ ifStages, ks => ifStages.At ks
  | .ifElseStage _ ifStages elseStages, ks =>
    (∃ ks', ks = 0 :: ks' ∧ ifStages.At ks') ∨ ∃ ks', ks = 1 :: ks' ∧ elseStages.At ks'
  | .optionalNone, _ => False
  | .optionalSome stages, ks => stages.At ks

def Stages.At : Stages L C → List ℕ → Prop
  | .nil, _ => False
  | .cons head tail, ks => (∃ ks', ks = (tail.len + 1) :: ks' ∧ head.At ks') ∨ tail.At ks

end

attribute [local simp] Stage.At Stages.At

theorem Stages.At.head :
    ∀ {ss : Stages L C} {ks : List ℕ}, ss.At ks → ∃ k ks', ks = k :: ks' ∧ k ≤ ss.len
  | .nil, _, h => by rw [Stages.At] at h; exact h.elim
  | .cons head tail, ks, h => by
    rw [Stages.At] at h
    rcases h with ⟨ks', rfl, _⟩ | h
    · exact ⟨_, ks', rfl, le_refl _⟩
    · obtain ⟨k, ks', rfl, hk⟩ := h.head
      exact ⟨k, ks', rfl, hk.trans (Nat.le_succ _)⟩

mutual

/-- The rest of a stage from a position on. -/
def Stage.resume : Stage L C → Bool → List ℕ → EStateM Halt (Env L C) Unit
  | .leaf name, skipped, _ => insist skipped name
  | .whileStage closure stages, skipped, ks => do
    stages.resumeAll skipped ks
    loop .waiting (evaluate closure) (stages.execAll skipped) Env.size
  | .ifStage _ ifStages, skipped, ks => ifStages.resumeAll skipped ks
  | .ifElseStage _ ifStages elseStages, skipped, ks =>
    if ks.head? = some 0 then ifStages.resumeAll skipped ks.tail
    else elseStages.resumeAll skipped ks.tail
  | .optionalNone, _, _ => pure ()
  | .optionalSome stages, skipped, ks => stages.resumeAll skipped ks

def Stages.resumeAll : Stages L C → Bool → List ℕ → EStateM Halt (Env L C) Unit
  | .nil, _, _ => pure ()
  | .cons head tail, skipped, ks =>
    if ks.head? = some (tail.len + 1) then do
      head.resume skipped ks.tail
      checkStop
      tail.execAll true
    else do
      checkStop
      tail.resumeAll true ks

end

attribute [local simp] resume resumeAll

theorem resumeAll_head (head : Stage L C) (tail : Stages L C) (skipped : Bool) (ks : List ℕ) :
    (cons head tail).resumeAll skipped ((tail.len + 1) :: ks) =
      (do head.resume skipped ks; checkStop; tail.execAll true) := by
  rw [resumeAll, head?_cons, if_pos rfl, tail_cons]

variable {ks : List ℕ}

theorem resumeAll_tail (head : Stage L C) {tail : Stages L C} (skipped : Bool) (h : tail.At ks) :
    (cons head tail).resumeAll skipped ks = (do checkStop; tail.resumeAll true ks) := by
  obtain ⟨k, ks', rfl, hk⟩ := h.head
  rw [resumeAll, head?_cons, if_neg]
  intro hsome
  cases hsome
  omega

variable (closure : C)

theorem resume_if (ifStages elseStages : Stages L C) (skipped : Bool) (ks : List ℕ) :
    (ifElseStage closure ifStages elseStages).resume skipped (0 :: ks) =
      ifStages.resumeAll skipped ks := by
  rw [resume, head?_cons, if_pos rfl, tail_cons]

theorem resume_else (ifStages elseStages : Stages L C) (skipped : Bool) (ks : List ℕ) :
    (ifElseStage closure ifStages elseStages).resume skipped (1 :: ks) =
      elseStages.resumeAll skipped ks := by
  rw [resume, head?_cons, if_neg (by simp), tail_cons]

theorem Spends.afterCheck {m : EStateM Halt (Env L C) Unit} (h : Spends m) :
    Spends (do checkStop; m) := by
  intro env
  rw [spec_bind]
  refine (checkStop_spec env).mono (fun _ env' heq => ?_) (fun _ env' hE => ?_)
  · rw [heq]
    exact h env
  · rw [hE.2]
    exact Grows.refl env

mutual

/-- A resumed stage enters its leaf. -/
theorem spends_resume : ∀ {s : Stage L C} (skipped : Bool) {ks : List ℕ}, s.At ks →
    Spends (s.resume skipped ks)
  | .leaf name, skipped, _, _ => by rw [resume]; exact spends_insist skipped name
  | .whileStage closure stages, skipped, ks, h => by
    rw [Stage.At] at h
    rw [resume]
    exact (spends_resumeAll skipped h).bind fun _ =>
      calls_grows.whileLoop closure (calls_grows.execAll stages skipped)
  | .ifStage _ ifStages, skipped, ks, h => by
    rw [Stage.At] at h
    rw [resume]
    exact spends_resumeAll skipped h
  | .ifElseStage _ ifStages elseStages, skipped, ks, h => by
    rw [Stage.At] at h
    rcases h with ⟨ks', rfl, h⟩ | ⟨ks', rfl, h⟩
    · rw [resume_if]
      exact spends_resumeAll skipped h
    · rw [resume_else]
      exact spends_resumeAll skipped h
  | .optionalNone, _, _, h => by rw [Stage.At] at h; exact h.elim
  | .optionalSome stages, skipped, ks, h => by
    rw [Stage.At] at h
    rw [resume]
    exact spends_resumeAll skipped h

theorem spends_resumeAll : ∀ {ss : Stages L C} (skipped : Bool) {ks : List ℕ}, ss.At ks →
    Spends (ss.resumeAll skipped ks)
  | .nil, _, _, h => by rw [Stages.At] at h; exact h.elim
  | .cons head tail, skipped, ks, h => by
    rw [Stages.At] at h
    rcases h with ⟨ks', rfl, h⟩ | h
    · rw [resumeAll_head]
      exact (spends_resume skipped h).bind fun _ =>
        calls_grows.bind calls_grows.checkStop fun _ => calls_grows.execAll tail true
    · rw [resumeAll_tail head skipped h]
      exact (spends_resumeAll true h).afterCheck

end

/-! ### The code follows the meaning -/

variable (base : List ℕ)

/-- How a result of the code on a stack that starts with `base` stands to a result of the meaning:
    on success only `base` is left; after a crash the rest of the stack is a position, and `back`
    from it is what the meaning has still to do. -/
def Sim (depth : ℕ) (At : List ℕ → Prop) (back : List ℕ → EStateM Halt (Env L C) Unit) :
    EStateM.Result Halt (Proc L C) Unit → EStateM.Result Halt (Env L C) Unit → Prop
  | .ok _ p, a => p.stack = ⟨base, depth⟩ ∧ a = .ok () p.env
  | .error .crashed p, a => ∃ ks, At ks ∧ p.stack.stageIdxStack = base ++ ks ∧ a = back ks p.env
  | .error h p, a => a = .error h p.env

section
variable {base pre : List ℕ} {d d' : ℕ} {At At' : List ℕ → Prop}
  {back back' : List ℕ → EStateM Halt (Env L C) Unit} {p : Proc L C} {env : Env L C}

variable {a : EStateM Halt (Env L C) Unit} {m f : EStateM Halt (Proc L C) Unit}
variable {g : EStateM Halt (Env L C) Unit}

/-- Sequencing: the first part may use further levels `pre` of the stack. -/
theorem Sim.bind (h : Sim (base ++ pre) d At' back' (m p) (a env))
    (hcrash : ∀ ks, At' ks → At (pre ++ ks) ∧ back (pre ++ ks) = do back' ks; g)
    (hok : ∀ env', a env = .ok () env' → Sim base d' At back (f ⟨env', ⟨base ++ pre, d⟩⟩) (g env')) :
    Sim base d' At back ((do m; f) p) ((do a; g) env) := by
  cases hm : m p with
  | ok _ q =>
    rw [hm] at h
    obtain ⟨hstack, ha⟩ := h
    obtain ⟨env', stack⟩ := q
    cases hstack
    rw [bind_ok hm, bind_ok ha]
    exact hok env' ha
  | error e q =>
    rw [bind_error hm]
    rw [hm] at h
    cases e with
    | crashed =>
      obtain ⟨ks, hat, hstack, ha⟩ := h
      obtain ⟨hat, hback⟩ := hcrash ks hat
      refine ⟨pre ++ ks, hat, by rw [hstack, append_assoc], ?_⟩
      rw [hback]
      exact bind_eq ha
    | error | waiting => rw [bind_error h]; rfl

theorem Sim.seq (h : Sim base d At' back' (m p) (a env))
    (hcrash : ∀ ks, At' ks → At ks ∧ back ks = do back' ks; g)
    (hok : ∀ env', a env = .ok () env' → Sim base d' At back (f ⟨env', ⟨base, d⟩⟩) (g env')) :
    Sim base d' At back ((do m; f) p) ((do a; g) env) := by
  have hnil : base ++ [] = base := append_nil base
  rw [← hnil] at h
  refine h.bind hcrash (fun env' ha => ?_)
  rw [hnil]
  exact hok env' ha

variable {a : EStateM.Result Halt (Env L C) Unit}

theorem Sim.mono {r : EStateM.Result Halt (Proc L C) Unit}
    (h : Sim base d At' back' r a) (hback : ∀ ks, At' ks → At ks ∧ back ks = back' ks) :
    Sim base d At back r a := by
  cases r with
  | ok _ p => exact h
  | error e p =>
    cases e with
    | crashed =>
      obtain ⟨ks, hat, hstack, ha⟩ := h
      obtain ⟨hat, hback⟩ := hback ks hat
      exact ⟨ks, hat, hstack, hback ▸ ha⟩
    | error | waiting => exact h

/-- The level that a wrapping stage enters and leaves. -/
theorem Sim.level {m : EStateM Halt (Proc L C) Unit}
    (hlen : base.length = d + 1)
    (h : Sim base base.length At back (m ⟨env, ⟨base ++ ks, base.length⟩⟩) a) :
    Sim base d At back
      ((do onStack .enterInnerStage; m; onStack .exitInnerStage) ⟨env, ⟨base ++ ks, d⟩⟩) a := by
  have henter : (onStack .enterInnerStage ⟨env, ⟨base ++ ks, d⟩⟩ : EStateM.Result Halt _ _)
      = .ok () ⟨env, ⟨base ++ ks, base.length⟩⟩ := by
    rw [hlen]
    rfl
  rw [bind_ok henter]
  cases hm : m ⟨env, ⟨base ++ ks, base.length⟩⟩ with
  | ok _ q =>
    rw [hm] at h
    obtain ⟨hstack, ha⟩ := h
    obtain ⟨env', stack⟩ := q
    cases hstack
    rw [bind_ok hm]
    refine ⟨?_, ha⟩
    show (⟨base, base.length - 1⟩ : StageStack) = ⟨base, d⟩
    rw [hlen, Nat.add_sub_cancel]
  | error e q =>
    rw [bind_error hm]
    rw [hm] at h
    cases e <;> exact h

/-- A failure that is not a crash ends both sides. -/
theorem Sim.error {e : Halt} (he : e ≠ .crashed) (stack : StageStack) :
    Sim base d At back (.error e ⟨env, stack⟩) (.error e env) := by
  cases e with
  | crashed => exact absurd rfl he
  | error | waiting => rfl

theorem Sim.checkStop : Sim base d (fun _ => False) (fun _ => pure ())
    (onEnv Nested.checkStop ⟨env, ⟨base, d⟩⟩) (Nested.checkStop env) := by
  unfold onEnv zoom
  cases h : Nested.checkStop env with
  | ok _ env' => exact ⟨rfl, rfl⟩
  | error e env' => exact Sim.error ((checkStop_spec env).error h).1 _

end

/-- How a computation of the meaning is started: afresh, or from a position. -/
def Starts (At : List ℕ → Prop) (exec : EStateM Halt (Env L C) Unit)
    (resume : List ℕ → EStateM Halt (Env L C) Unit) (ks : List ℕ)
    (a : EStateM Halt (Env L C) Unit) : Prop :=
  ks = [] ∧ a = exec ∨ At ks ∧ a = resume ks

/-- The stage follows its meaning, on a stack that has its own id at the depth `d`. -/
def Stage.Follows (s : Stage L C) (skipped : Bool) : Prop :=
  ∀ base d env ks a, base.length = d + 1 → Starts s.At (s.exec skipped) (s.resume skipped) ks a →
    Sim base d s.At (fun ks => do comeBack skipped; s.resume skipped ks)
      (s.performRestartable s.perform ⟨env, ⟨base ++ ks, d⟩⟩) (a env)

def Stages.Follow (ss : Stages L C) (skipped : Bool) : Prop :=
  ∀ base env ks a, Starts ss.At (ss.execAll skipped) (ss.resumeAll skipped) ks a →
    Sim base base.length ss.At (fun ks => do comeBack skipped; ss.resumeAll skipped ks)
      (ss.performAll ⟨env, ⟨base ++ ks, base.length⟩⟩) (a env)

theorem follows_leaf (name : L) (skipped : Bool) : (leaf name : Stage L C).Follows skipped := by
  intro base d env ks a _ hstart
  obtain ⟨rfl, rfl⟩ : ks = [] ∧ a = insist skipped name := by
    rcases hstart with ⟨hks, ha⟩ | ⟨hks, ha⟩
    · exact ⟨hks, ha⟩
    · rw [Stage.At] at hks
      rw [resume] at ha
      exact ⟨hks, ha⟩
  rw [append_nil]
  simp only [performRestartable, perform, onEnv, zoom]
  cases h : performLeaf name env with
  | ok _ env' =>
    rw [insist_ok h]
    exact ⟨rfl, rfl⟩
  | error e env' =>
    cases e with
    | crashed =>
      rw [insist_crashed h]
      refine ⟨[], ?_, (append_nil _).symm, ?_⟩
      · rw [Stage.At]
      · simp only [resume]
    | error | waiting =>
      rw [insist_error h Halt.noConfusion]
      rfl

/-! ### The wrapping stages -/

@[simp] theorem currentStageId_append (base ks : List ℕ) :
    currentStageId ⟨base ++ ks, base.length⟩ = ks.head? := by
  rw [currentStageId, getElem?_append_right (le_refl _), Nat.sub_self, head?_eq_getElem?]

theorem currentStageId_top : currentStageId ⟨base, base.length⟩ = none := by
  simp [currentStageId]

theorem clearStageId_append (base ks : List ℕ) :
    clearStageId ⟨base ++ ks, base.length⟩ = ⟨base, base.length⟩ := by
  rw [clearStageId, take_left]

variable {ss : Stages L C}

theorem resumedOr_resumed (h : ss.At ks) (env : Env L C) :
    resumedOr closure ⟨env, ⟨base ++ ks, base.length⟩⟩ =
      .ok true ⟨env, ⟨base ++ ks, base.length⟩⟩ := by
  obtain ⟨k, ks', rfl, _⟩ := h.head
  simp only [resumedOr, get_bind, currentStageId_append, head?_cons, Option.isSome_some, if_true]
  rfl

variable {env env' : Env L C}

theorem onEnv_ok {α : Type} {m : EStateM Halt (Env L C) α} {b : α} (h : m env = .ok b env')
    (stack : StageStack) : onEnv m ⟨env, stack⟩ = .ok b ⟨env', stack⟩ := by
  simp only [onEnv, zoom, h]

variable {e : Halt}

theorem onEnv_error {α : Type} {m : EStateM Halt (Env L C) α} (h : m env = .error e env')
    (stack : StageStack) : onEnv m ⟨env, stack⟩ = .error e ⟨env', stack⟩ := by
  simp only [onEnv, zoom, h]

theorem resumedOr_ok {b : Bool} (h : evaluate closure env = .ok b env') :
    resumedOr closure ⟨env, ⟨base, base.length⟩⟩ = .ok b ⟨env', ⟨base, base.length⟩⟩ := by
  simp [resumedOr, get_bind, currentStageId_top, onEnv_ok h]

theorem resumedOr_error (h : evaluate closure env = .error e env') :
    resumedOr closure ⟨env, ⟨base, base.length⟩⟩ = .error e ⟨env', ⟨base, base.length⟩⟩ := by
  simp [resumedOr, get_bind, currentStageId_top, onEnv_error h]

theorem setCurrentStageId_top (idx : ℕ) (base : List ℕ) (env : Env L C) :
    setCurrentStageId idx ⟨env, ⟨base, base.length⟩⟩ =
      .ok () ⟨env, ⟨base ++ [idx], base.length⟩⟩ := by
  rw [setCurrentStageId, get_bind]
  simp only [StageStack.setCurrentStageId, ne_eq, not_true, if_false]
  rfl

theorem evaluate_ne_crashed {closure : C} (h : evaluate closure env = .error e env') :
    e ≠ .crashed := by
  rintro rfl
  exact (evaluate_spec closure env).error h

variable {skipped : Bool}

/-- The rounds of a `WhileStage`, by induction on their bound. The condition is true at once when
    the body is resumed. -/
theorem sim_rounds (hss : ss.Follow skipped) (closure : C) (base : List ℕ) :
    ∀ n env ks a, env.size < n →
      Starts ss.At ((whileStage closure ss).exec skipped)
        ((whileStage closure ss).resume skipped) ks a →
      Sim base base.length ss.At (fun ks => do
          comeBack skipped; (whileStage closure ss).resume skipped ks)
        (rounds .waiting (resumedOr closure) ss.performAll n ⟨env, ⟨base ++ ks, base.length⟩⟩) (a env) := by
  intro n
  induction n with
  | zero => intro env ks a hn; exact absurd hn (Nat.not_lt_zero _)
  | succ n ih =>
    intro env ks a hn hstart
    have hround : ∀ env' b, Starts ss.At (ss.execAll skipped) (ss.resumeAll skipped) ks b →
        (∀ env'', b env' = .ok () env'' → env''.size < n) →
        Sim base base.length ss.At (fun ks => do
            comeBack skipped; (whileStage closure ss).resume skipped ks)
          ((do ss.performAll; rounds .waiting (resumedOr closure) ss.performAll n)
            ⟨env', ⟨base ++ ks, base.length⟩⟩)
          ((do b; (whileStage closure ss).exec skipped) env') := by
      intro env' b hb hsize
      refine (hss base env' ks b hb).seq (fun ks' h => ⟨h, ?_⟩) (fun env'' hok => ?_)
      · rw [resume, exec, bind_assoc]
      · have hnext := ih env'' [] _ (hsize env'' hok) (.inl ⟨rfl, rfl⟩)
        rwa [append_nil] at hnext
    rcases hstart with ⟨rfl, rfl⟩ | ⟨hat, rfl⟩
    · rw [append_nil] at hround ⊢
      rw [exec]
      cases hcond : evaluate closure env with
      | error e env' =>
        rw [rounds_error n (resumedOr_error closure base hcond), loop_error hcond]
        exact Sim.error (evaluate_ne_crashed hcond) _
      | ok b env' =>
        have hcode := resumedOr_ok closure base hcond
        have hcalled := ((evaluate_spec closure env).ok hcond).2
        cases b with
        | false =>
          rw [rounds_false n hcode, loop_false hcond]
          exact ⟨rfl, rfl⟩
        | true =>
          rw [rounds_true n hcode, loop_true (decreasing_while closure ss skipped) hcond, ← exec]
          refine hround env' _ (.inl ⟨rfl, rfl⟩) (fun env'' hok => ?_)
          obtain ⟨es, _, hsize⟩ := (calls_grows.execAll ss skipped env').ok hok
          omega
    · rw [rounds_true n (resumedOr_resumed closure base hat env), resume, ← exec]
      refine hround env _ (.inr ⟨hat, rfl⟩) (fun env'' hok => ?_)
      have hlt := ((spends_resumeAll skipped hat env).ok hok).2
      omega

theorem follows_while (hss : ss.Follow skipped) (closure : C) :
    (whileStage closure ss).Follows skipped := by
  intro base d env ks a hlen hstart
  refine Sim.level hlen ?_
  rw [perform]
  exact sim_rounds hss closure base (env.size + 1) env ks a (Nat.lt_succ_self _) hstart

theorem follows_if (hss : ss.Follow skipped) (closure : C) :
    (ifStage closure ss).Follows skipped := by
  intro base d env ks a hlen hstart
  refine Sim.level hlen ?_
  rw [perform]
  rcases hstart with ⟨rfl, rfl⟩ | ⟨hat, rfl⟩
  · rw [append_nil, exec]
    cases hcond : evaluate closure env with
    | error e env' =>
      rw [bind_error (resumedOr_error closure base hcond), bind_error hcond]
      exact Sim.error (evaluate_ne_crashed hcond) _
    | ok b env' =>
      rw [bind_ok (resumedOr_ok closure base hcond), bind_ok hcond]
      cases b with
      | false => exact ⟨rfl, rfl⟩
      | true =>
        have hbody := hss base env' [] _ (.inl ⟨rfl, rfl⟩)
        rw [append_nil] at hbody
        exact hbody
  · rw [bind_ok (resumedOr_resumed closure base hat env)]
    exact hss base env ks _ (.inr ⟨hat, rfl⟩)

theorem follows_optional (hss : ss.Follow skipped) : (optionalSome ss).Follows skipped := by
  intro base d env ks a hlen hstart
  refine Sim.level hlen ?_
  rw [perform]
  exact hss base env ks a hstart

theorem follows_none (skipped : Bool) : (optionalNone : Stage L C).Follows skipped := by
  intro base d env ks a hlen hstart
  refine Sim.level hlen ?_
  rw [perform]
  rcases hstart with ⟨rfl, rfl⟩ | ⟨hat, rfl⟩
  · rw [append_nil]
    exact ⟨rfl, rfl⟩
  · exact hat.elim

/-- The part of an `IfElseStage` after the branch is chosen and stored. -/
def branch (ss : Stages L C) : EStateM Halt (Proc L C) Unit := do
  onStack .enterInnerStage
  ss.performAll
  onStack .exitInnerStage
  onStack .clearStageId

section
variable (closure : C) (ifStages elseStages : Stages L C) (base : List ℕ) {env env' : Env L C}

theorem perform_ifElse_error (h : evaluate closure env = .error e env') :
    (ifElseStage closure ifStages elseStages).perform ⟨env, ⟨base, base.length⟩⟩ =
      .error e ⟨env', ⟨base, base.length⟩⟩ := by
  rw [perform, get_bind]
  simp only [currentStageId_top, Option.isNone_none, if_true]
  exact bind_error (onEnv_error h ⟨base, base.length⟩)

theorem perform_ifElse_fresh {b : Bool} (h : evaluate closure env = .ok b env') :
    (ifElseStage closure ifStages elseStages).perform ⟨env, ⟨base, base.length⟩⟩ =
      branch (if b then ifStages else elseStages) ⟨env', ⟨base ++ [if b then 0 else 1], base.length⟩⟩ := by
  rw [perform, get_bind]
  simp only [currentStageId_top, Option.isNone_none, if_true]
  rw [bind_ok (onEnv_ok h ⟨base, base.length⟩)]
  cases b with
  | true =>
    simp only [or_true, if_true]
    exact bind_ok (setCurrentStageId_top 0 base env')
  | false =>
    simp only [reduceCtorEq, Bool.false_eq_true, or_false, if_false]
    exact bind_ok (setCurrentStageId_top 1 base env')

theorem perform_ifElse_resumed (i : ℕ) (ks : List ℕ) (env : Env L C) :
    (ifElseStage closure ifStages elseStages).perform ⟨env, ⟨base ++ i :: ks, base.length⟩⟩ =
      branch (if i = 0 then ifStages else elseStages) ⟨env, ⟨base ++ i :: ks, base.length⟩⟩ := by
  rw [perform, get_bind]
  simp only [currentStageId_append, head?_cons, Option.isNone_some, Bool.false_eq_true, if_false,
    pure_bind, Option.some.injEq, or_false]
  by_cases hi : i = 0 <;> simp only [hi, if_true, if_false] <;> rfl

end

/-- What a position in the branch `i` is to the stage. -/
def Branch (s : Stage L C) (skipped : Bool) (i : ℕ) (ss : Stages L C) : Prop :=
  ∀ ks, ss.At ks → s.At (i :: ks) ∧ s.resume skipped (i :: ks) = ss.resumeAll skipped ks

variable {a : EStateM Halt (Env L C) Unit}

/-- The chosen branch is performed one level further down than the stage. -/
theorem sim_branch (hss : ss.Follow skipped) (base : List ℕ) {s : Stage L C} {i : ℕ}
    (hstart : Starts ss.At (ss.execAll skipped) (ss.resumeAll skipped) ks a)
    (hbranch : Branch s skipped i ss) :
    Sim base base.length s.At (fun ks => do comeBack skipped; s.resume skipped ks)
      (branch ss ⟨env, ⟨base ++ i :: ks, base.length⟩⟩) (a env) := by
  have hsplit : (branch ss : EStateM Halt (Proc L C) Unit) =
      (do onStack .enterInnerStage; ss.performAll; onStack .exitInnerStage) >>=
        fun _ => onStack .clearStageId := by
    simp only [branch, bind_assoc]
  have hlevel := Sim.level (d := base.length) length_append (hss (base ++ [i]) env ks a hstart)
  rw [hsplit, append_cons, ← bind_pure_unit (x := a)]
  refine hlevel.bind (fun ks' h => ?_) (fun env' _ => ⟨?_, rfl⟩)
  · obtain ⟨hat, hresume⟩ := hbranch ks' h
    refine ⟨hat, ?_⟩
    rw [bind_pure_unit]
    exact congrArg _ (funext fun _ => hresume)
  · exact clearStageId_append base [i]

theorem follows_ifElse {ifStages elseStages : Stages L C} (hif : ifStages.Follow skipped)
    (helse : elseStages.Follow skipped) (closure : C) :
    (ifElseStage closure ifStages elseStages).Follows skipped := by
  intro base d env ks a hlen hstart
  refine Sim.level hlen ?_
  have hIf : Branch (ifElseStage closure ifStages elseStages) skipped 0 ifStages := by
    intro ks h
    rw [Stage.At, resume_if]
    exact ⟨.inl ⟨ks, rfl, h⟩, rfl⟩
  have hElse : Branch (ifElseStage closure ifStages elseStages) skipped 1 elseStages := by
    intro ks h
    rw [Stage.At, resume_else]
    exact ⟨.inr ⟨ks, rfl, h⟩, rfl⟩
  rcases hstart with ⟨rfl, rfl⟩ | ⟨hat, rfl⟩
  · rw [append_nil, exec]
    cases hcond : evaluate closure env with
    | error e env' =>
      rw [perform_ifElse_error closure ifStages elseStages base hcond, bind_error hcond]
      exact Sim.error (evaluate_ne_crashed hcond) _
    | ok b env' =>
      rw [perform_ifElse_fresh closure ifStages elseStages base hcond, bind_ok hcond]
      cases b with
      | true => exact sim_branch hif base (.inl ⟨rfl, rfl⟩) hIf
      | false => exact sim_branch helse base (.inl ⟨rfl, rfl⟩) hElse
  · rw [Stage.At] at hat
    rcases hat with ⟨ks', rfl, hat⟩ | ⟨ks', rfl, hat⟩
    · rw [perform_ifElse_resumed, resume_if]
      exact sim_branch hif base (.inr ⟨hat, rfl⟩) hIf
    · rw [perform_ifElse_resumed, resume_else]
      exact sim_branch helse base (.inr ⟨hat, rfl⟩) hElse

/-! ### The tuples -/

theorem follow_nil (skipped : Bool) : (nil : Stages L C).Follow skipped := by
  intro base env ks a hstart
  rcases hstart with ⟨rfl, rfl⟩ | ⟨hat, rfl⟩
  · have hcode : (nil : Stages L C).performAll ⟨env, ⟨base ++ [], base.length⟩⟩
        = .ok () ⟨env, ⟨base ++ [], base.length⟩⟩ := by
      rw [append_nil, Stages.performAll, get_bind, currentStageId_top]
      rfl
    rw [hcode]
    exact ⟨by rw [append_nil], rfl⟩
  · exact hat.elim

/-- The part of a tuple that performs its head. -/
def headThenTail (head : Stage L C) (tail : Stages L C) : EStateM Halt (Proc L C) Unit := do
  head.performRestartable head.perform
  onStack .clearStageId
  onEnv checkStop
  tail.performAll

section
variable (head : Stage L C) (tail : Stages L C) (base : List ℕ) (env : Env L C)

theorem performAll_fresh :
    (cons head tail).performAll ⟨env, ⟨base, base.length⟩⟩ =
      headThenTail head tail ⟨env, ⟨base ++ [tail.len + 1], base.length⟩⟩ := by
  rw [Stages.performAll, get_bind]
  simp only [currentStageId_top]
  exact bind_ok (setCurrentStageId_top _ base env)

theorem performAll_resumed (ks : List ℕ) :
    (cons head tail).performAll ⟨env, ⟨base ++ (tail.len + 1) :: ks, base.length⟩⟩ =
      headThenTail head tail ⟨env, ⟨base ++ (tail.len + 1) :: ks, base.length⟩⟩ := by
  rw [Stages.performAll, get_bind]
  simp only [currentStageId_append, head?_cons, lt_irrefl, if_false, if_true]
  rfl

variable {tail} in
theorem performAll_skipped (h : tail.At ks) :
    (cons head tail).performAll ⟨env, ⟨base ++ ks, base.length⟩⟩ =
      (do onEnv checkStop; tail.performAll) ⟨env, ⟨base ++ ks, base.length⟩⟩ := by
  obtain ⟨k, ks', rfl, hk⟩ := h.head
  rw [Stages.performAll, get_bind]
  simp [currentStageId_append, Nat.lt_succ_of_le hk]

end

/-- A second check for a stop request finds nothing. -/
theorem checkStop_twice (m : EStateM Halt (Env L C) Unit) :
    (do checkStop; checkStop; m) = (do checkStop; m) := by
  funext env
  cases h : checkStop env with
  | error e env' => rw [bind_error h, bind_error h]
  | ok _ env' =>
    obtain rfl : env' = env := (checkStop_spec env).ok h
    rw [bind_ok h, bind_ok h]

/-- A position in the tail, seen from the tuple. -/
theorem tail_back (head : Stage L C) {tail : Stages L C} (skipped : Bool) (h : tail.At ks) :
    (cons head tail).At ks ∧ (do comeBack skipped; (cons head tail).resumeAll skipped ks) =
        (do comeBack true; tail.resumeAll true ks) := by
  rw [Stages.At, resumeAll_tail head skipped h]
  refine ⟨.inr h, ?_⟩
  cases skipped with
  | false => rfl
  | true => exact checkStop_twice _

section
variable {head : Stage L C} {tail : Stages L C} {skipped : Bool}

theorem sim_headThenTail (hhead : head.Follows skipped) (htail : tail.Follow true) (base : List ℕ)
    (env : Env L C)
    (hstart : Starts head.At (head.exec skipped) (head.resume skipped) ks a) :
    Sim base base.length (cons head tail).At
      (fun ks => do comeBack skipped; (cons head tail).resumeAll skipped ks)
      (headThenTail head tail ⟨env, ⟨base ++ (tail.len + 1) :: ks, base.length⟩⟩)
      ((do a; checkStop; tail.execAll true) env) := by
  rw [append_cons]
  refine (hhead _ base.length env ks a length_append hstart).bind
    (fun ks' h => ⟨?_, ?_⟩) (fun env' _ => ?_)
  · rw [Stages.At]
    exact .inl ⟨ks', rfl, h⟩
  · simp [bind_assoc]
  · have hclear : (onStack .clearStageId ⟨env', ⟨base ++ [tail.len + 1], base.length⟩⟩ :
        EStateM.Result Halt _ _) = .ok () ⟨env', ⟨base, base.length⟩⟩ :=
      congrArg (fun stack => EStateM.Result.ok () (Proc.mk env' stack)) (clearStageId_append base _)
    rw [bind_ok hclear]
    refine Sim.checkStop.seq (fun _ h => h.elim) (fun env'' _ => ?_)
    have hrest := htail base env'' [] _ (.inl ⟨rfl, rfl⟩)
    rw [append_nil] at hrest
    exact hrest.mono fun ks h => tail_back head skipped h

theorem follow_cons (hhead : head.Follows skipped) (htail : tail.Follow true) :
    (cons head tail).Follow skipped := by
  intro base env ks a hstart
  rcases hstart with ⟨rfl, rfl⟩ | ⟨hat, rfl⟩
  · rw [append_nil, performAll_fresh, execAll]
    exact sim_headThenTail hhead htail base env (.inl ⟨rfl, rfl⟩)
  rw [Stages.At] at hat
  rcases hat with ⟨ks', rfl, hat⟩ | hat
  · rw [performAll_resumed, resumeAll_head]
    exact sim_headThenTail hhead htail base env (.inr ⟨hat, rfl⟩)
  -- The head was completed before the crash: only the stop request is looked at.
  rw [performAll_skipped head base env hat, resumeAll_tail head skipped hat]
  refine Sim.checkStop.bind (fun _ h => h.elim) (fun env' _ => ?_)
  exact (htail base env' ks _ (.inr ⟨hat, rfl⟩)).mono fun ks h => tail_back head skipped h

end

mutual

theorem follows : ∀ (s : Stage L C) (skipped : Bool), s.Follows skipped
  | .leaf name, skipped => follows_leaf name skipped
  | .whileStage closure stages, skipped => follows_while (follow stages skipped) closure
  | .ifStage closure ifStages, skipped => follows_if (follow ifStages skipped) closure
  | .ifElseStage closure ifStages elseStages, skipped =>
    follows_ifElse (follow ifStages skipped) (follow elseStages skipped) closure
  | .optionalNone, skipped => follows_none skipped
  | .optionalSome stages, skipped => follows_optional (follow stages skipped)

theorem follow : ∀ (ss : Stages L C) (skipped : Bool), ss.Follow skipped
  | .nil, skipped => follow_nil skipped
  | .cons head tail, skipped => follow_cons (follows head skipped) (follow tail true)

end

/-! ### Any number of restarts -/

theorem sim_restarting (ss : Stages L C) (n : ℕ) : ∀ env ks a,
    Starts ss.At (ss.execAll false) (ss.resumeAll false) ks a →
    Sim [] 0 ss.At (ss.resumeAll false) (performRestarting ss n ⟨env, ⟨ks, 0⟩⟩) (a env) := by
  induction n with
  | zero => exact follow ss false []
  | succ n ih =>
    intro env ks a hstart
    have hfirst := follow ss false [] env ks a hstart
    unfold performRestarting
    cases hrun : ss.performAll ⟨env, ⟨ks, 0⟩⟩ with
    | ok _ p =>
      rw [nil_append, length_nil, hrun] at hfirst
      exact hfirst
    | error e p =>
      rw [nil_append, length_nil, hrun] at hfirst
      cases e with
      | crashed =>
        obtain ⟨ks', hat, hstack, ha⟩ := hfirst
        have hnext := ih p.env ks' _ (.inr ⟨hat, rfl⟩)
        rw [nil_append] at hstack
        rw [ha, ← hstack]
        rw [← hstack] at hnext
        exact hnext
      | error | waiting => exact hfirst

/-- The trace of the code is a beginning of the trace of the meaning. -/
theorem Sim.grows {n : ℕ}
    (h : Sim [] 0 ss.At (ss.resumeAll false) (performRestarting ss n ⟨env, ⟨[], 0⟩⟩) (ss.execAll false env)) :
    Grows (finalState (performRestarting ss n) ⟨env, ⟨[], 0⟩⟩).env (finalState (ss.execAll false) env) := by
  unfold finalState
  cases hrun : performRestarting ss n ⟨env, ⟨[], 0⟩⟩ with
  | ok _ p =>
    rw [hrun] at h
    rw [h.2]
    exact Grows.refl _
  | error e p =>
    rw [hrun] at h
    cases e with
    | crashed =>
      obtain ⟨ks, hat, _, ha⟩ := h
      rw [ha]
      have hgrows := spends_resumeAll false hat p.env
      exact finalState_of_spec (hgrows.imp fun _ _ h => h.1)
    | error | waiting =>
      rw [show ss.execAll false env = _ from h]
      exact Grows.refl _

/-- Resuming nested stages. For every tree of stages and every behaviour of leaves and closures, a
    pass that is restarted after any number of crashes follows the meaning without a stack: when it
    returns, the stack is empty at depth 0 and the calls are those of `execAll`; when it ends with a
    crash, the ids left in the stack are a position from which `resumeAll` does the rest; other
    failures are failures of `execAll`. Every crash of a leaf is followed by the next entry of that
    leaf, if by anything. -/
theorem nested_stages_resume (ss : Stages L C) (n : ℕ) (answers : List Answer) (stop : Bool)
    (onShutdown : Except Error Unit) :
    let start : Env L C := { answers, stop, onShutdown }
    (match performRestarting ss n ⟨start, ⟨[], 0⟩⟩ with
      | .ok _ p => p.stack = ⟨[], 0⟩ ∧ ss.execAll false start = .ok () p.env
      | .error .crashed p => ss.At p.stack.stageIdxStack ∧
        ss.execAll false start = ss.resumeAll false p.stack.stageIdxStack p.env
      | .error h p => ss.execAll false start = .error h p.env) ∧
    Reentered (finalState (performRestarting ss n) ⟨start, ⟨[], 0⟩⟩).env.trace := by
  intro start
  have hsim := sim_restarting ss n start [] _ (.inl ⟨rfl, rfl⟩)
  constructor
  · cases hrun : performRestarting ss n ⟨start, ⟨[], 0⟩⟩ with
    | ok _ p =>
      rw [hrun] at hsim
      exact hsim
    | error e p =>
      rw [hrun] at hsim
      cases e with
      | crashed =>
        obtain ⟨ks, hat, hstack, ha⟩ := hsim
        obtain rfl : p.stack.stageIdxStack = ks := hstack
        exact ⟨hat, ha⟩
      | error | waiting => exact hsim
  · have hsettled : start.Settled := ⟨isChain_nil, fun name h => by simp [start] at h⟩
    have hall : Reentered (finalState (ss.execAll false) start).trace := by
      refine finalState_of_spec (P := fun env : Env L C => Reentered env.trace) ?_
      exact (calls_reentered.execAll ss false start).mono (fun _ _ h => (h hsettled).1)
        (fun _ _ h => h hsettled)
    obtain ⟨es, htrace, _⟩ := hsim.grows
    rw [htrace] at hall
    exact (isChain_append.mp hall).1

end Bofuzz.Nested
