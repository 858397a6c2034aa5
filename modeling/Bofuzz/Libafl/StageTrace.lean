import Bofuzz.Libafl.NestedStages
import Mathlib.Data.List.Chain

/-! What the meaning of a tree of stages does to its environment.

    A relation that the calls of leaves and closures respect and that composes is respected by every
    stage (`Calls.exec`). This is used for the answers and the trace, which every call moves on by
    one, and for the crashes in the trace, each of which is followed by another entry of the same
    leaf. -/

namespace Bofuzz.Nested
open Effect Rounds List

variable {L C : Type} {α β : Type}

/-! ### One call -/

/-- One call was made and recorded. -/
def Called (env env' : Env L C) (e : Event L C) : Prop :=
  env'.trace = env.trace ++ [e] ∧ env'.size + 1 = env.size

theorem called_called {env : Env L C} {a : Answer} {answers : List Answer}
    (h : env.answers = a :: answers) (e : Event L C) : Called env (env.called a answers e) e := by
  refine ⟨rfl, ?_⟩
  rw [Env.size, Env.size, h]
  rfl

theorem performLeaf_spec (name : L) (env : Env L C) :
    Spec (performLeaf name) env (fun _ env' => Called env env' (.entered name .completed))
      (fun h env' => match h with
        | .crashed => Called env env' (.entered name .crashed)
        | .error e => Called env env' (.entered name (.failed e))
        | .waiting => env' = env) := by
  simp only [performLeaf, spec_bind, spec_get]
  cases hanswers : env.answers with
  | nil => rfl
  | cons a answers =>
    have hcalled := called_called hanswers (.entered name a.leafEnd)
    simp only [spec_bind, spec_set]
    cases hend : a.leafEnd with
    | completed | crashed => rw [hend] at hcalled; exact hcalled
    | failed e => rw [hend] at hcalled; exact hcalled

theorem evaluate_spec (closure : C) (env : Env L C) :
    Spec (evaluate closure) env (fun b env' => Called env env' (.evaluated closure (.ok b)))
      (fun h env' => match h with
        | .crashed => False
        | .error e => Called env env' (.evaluated closure (.error e))
        | .waiting => env' = env) := by
  simp only [evaluate, spec_bind, spec_get]
  cases hanswers : env.answers with
  | nil => rfl
  | cons a answers =>
    have hcalled := called_called hanswers (.evaluated closure a.closure)
    simp only [spec_bind, spec_set]
    cases hend : a.closure with
    | ok | error => rw [hend] at hcalled; exact hcalled

/-- The check either does nothing or takes the stop request and fails. -/
theorem checkStop_spec (env : Env L C) :
    Spec checkStop env (fun _ env' => env' = env)
      (fun h env' => h ≠ .crashed ∧ env' = { env with stop := false }) := by
  simp only [checkStop, spec_bind, spec_get]
  split_ifs
  · simp only [spec_bind, spec_set]
    cases env.onShutdown with
    | ok | error => exact ⟨Halt.noConfusion, rfl⟩
  · rfl

theorem comeBack_spec (skipped : Bool) (env : Env L C) :
    Spec (comeBack skipped) env (fun _ env' => env' = env)
      (fun h env' => h ≠ .crashed ∧ env' = { env with stop := false }) := by
  cases skipped with
  | false => rfl
  | true => exact checkStop_spec env

/-! ### Entering a leaf until it does not crash -/

variable {env env' : Env L C} {skipped : Bool} {name : L}

theorem insist_crashed (h : performLeaf name env = .error .crashed env') :
    insist skipped name env = (do comeBack skipped; insist skipped name) env' := by
  have hsize : env'.size + 1 = env.size := ((performLeaf_spec name env).error h).2
  simp only [insist, insistUpTo, h]
  cases hback : comeBack skipped env' with
  | error e env'' => rw [bind_error hback, bind_error hback]
  | ok _ env'' =>
    obtain rfl : env'' = env' := (comeBack_spec skipped env').ok hback
    rw [bind_ok hback, bind_ok hback, ← hsize]
    rfl

theorem insist_ok (h : performLeaf name env = .ok () env') :
    insist skipped name env = .ok () env' := by
  simp only [insist, insistUpTo, h]

theorem insist_error {e : Halt} (h : performLeaf name env = .error e env') (he : e ≠ .crashed) :
    insist skipped name env = .error e env' := by
  cases e with
  | crashed => exact absurd rfl he
  | error | waiting => simp only [insist, insistUpTo, h]

/-- The rule for `insist`: `P` holds whenever the leaf is entered. -/
theorem insist_rule {P Q E : Env L C → Prop}
    (hleaf : ∀ env, P env → Spec (performLeaf name) env (fun _ => Q) (fun h env' => match h with
      | .crashed => P env' ∧ E { env' with stop := false } | _ => E env')) :
    ∀ env, P env → Spec (insist skipped name) env (fun _ => Q) (fun _ => E) := by
  intro env hP
  induction hn : env.size using Nat.strong_induction_on generalizing env with
  | _ n ih =>
    subst hn
    have hleaf := hleaf env hP
    unfold Spec
    cases hm : performLeaf name env with
    | ok _ env' =>
      rw [insist_ok hm]
      exact hleaf.ok hm
    | error h env' =>
      have hE := hleaf.error hm
      cases h with
      | crashed =>
        have hsize : env'.size + 1 = env.size := ((performLeaf_spec name env).error hm).2
        rw [insist_crashed hm]
        show Spec _ _ _ _
        rw [spec_bind]
        refine (comeBack_spec skipped env').mono (fun _ env'' h => ?_) (fun _ env'' h => ?_)
        · rw [h]
          exact ih env'.size (by omega) env' hE.1 rfl
        · rw [h.2]
          exact hE.2
      | error | waiting =>
        rw [insist_error hm Halt.noConfusion]
        exact hE

/-! ### From the calls to the trees -/

variable (R E : Env L C → Env L C → Prop)

/-- From every environment, success leads along `R` and failure along `E`. -/
def Keeps (m : EStateM Halt (Env L C) α) : Prop :=
  ∀ env, Spec m env (fun _ => R env) (fun _ => E env)

/-- Relations that compose and that the calls respect. -/
structure Calls : Prop where
  refl : ∀ env, R env env
  trans : ∀ {env env' env''}, R env env' → R env' env'' → R env env''
  fail : ∀ {env env' env''}, R env env' → E env' env'' → E env env''
  waiting : ∀ env, E env env
  evaluate : ∀ closure, Keeps R E (evaluate closure)
  checkStop : Keeps R E checkStop
  insist : ∀ skipped name, Keeps R E (insist skipped name)

namespace Calls
variable {R E : Env L C → Env L C → Prop} (h : Calls R E)
include h

variable {f : α → EStateM Halt (Env L C) β}

theorem bind {m : EStateM Halt (Env L C) α} (hm : Keeps R E m)
    (hf : ∀ a, Keeps R E (f a)) : Keeps R E (m >>= f) := by
  intro env
  rw [spec_bind]
  refine (hm env).imp fun a env' hR => ?_
  exact (hf a env').mono (fun _ _ => h.trans hR) (fun _ _ => h.fail hR)

variable {body : EStateM Halt (Env L C) Unit}

theorem rounds {cond : EStateM Halt (Env L C) Bool}
    (hcond : Keeps R E cond) (hbody : Keeps R E body) (n : ℕ) :
    Keeps R E (rounds .waiting cond body n) := by
  induction n with
  | zero => exact h.waiting
  | succ n ih =>
    refine h.bind hcond fun b => ?_
    cases b with
    | false => exact h.refl
    | true => exact h.bind hbody fun _ => ih

theorem whileLoop (closure : C) (hbody : Keeps R E body) :
    Keeps R E (loop .waiting (Nested.evaluate closure) body Env.size) :=
  fun env => h.rounds (h.evaluate closure) hbody _ env

mutual

theorem exec : ∀ (s : Stage L C) (skipped : Bool), Keeps R E (s.exec skipped)
  | .leaf name, skipped => h.insist skipped name
  | .whileStage closure stages, skipped => h.whileLoop closure (execAll stages skipped)
  | .ifStage closure ifStages, skipped => by
    refine h.bind (h.evaluate closure) fun b => ?_
    cases b with
    | true => exact execAll ifStages skipped
    | false => exact h.refl
  | .ifElseStage closure ifStages elseStages, skipped => by
    refine h.bind (h.evaluate closure) fun b => ?_
    cases b with
    | true => exact execAll ifStages skipped
    | false => exact execAll elseStages skipped
  | .optionalNone, _ => h.refl
  | .optionalSome stages, skipped => execAll stages skipped

theorem execAll : ∀ (ss : Stages L C) (skipped : Bool), Keeps R E (ss.execAll skipped)
  | .nil, _ => h.refl
  | .cons head tail, skipped =>
    h.bind (exec head skipped) fun _ => h.bind h.checkStop fun _ => execAll tail true

end

end Calls

/-! ### The answers and the trace -/

/-- Calls were made and recorded. -/
def Grows (env env' : Env L C) : Prop :=
  ∃ es, env'.trace = env.trace ++ es ∧ env'.size + es.length = env.size

theorem Grows.refl (env : Env L C) : Grows env env := ⟨[], (append_nil _).symm, rfl⟩

theorem Grows.trans {env'' : Env L C} (h : Grows env env') (h' : Grows env' env'') :
    Grows env env'' := by
  obtain ⟨es, htrace, hsize⟩ := h
  obtain ⟨es', htrace', hsize'⟩ := h'
  refine ⟨es ++ es', by rw [htrace', htrace, append_assoc], ?_⟩
  rw [length_append]
  omega

theorem Called.grows {e : Event L C} (h : Called env env' e) : Grows env env' :=
  ⟨[e], h.1, h.2⟩

/-- Calls are recorded, and success takes at least one. -/
def Spends (m : EStateM Halt (Env L C) α) : Prop :=
  Keeps (fun env env' => Grows env env' ∧ env'.size < env.size) Grows m

theorem spends_insist (skipped : Bool) (name : L) :
    Spends (insist skipped name : EStateM Halt (Env L C) Unit) := by
  intro env
  refine insist_rule (fun env' hP => ?_) env (Grows.refl env)
  refine (performLeaf_spec name env').mono (fun _ env'' h => ?_) (fun h env'' hE => ?_)
  · refine ⟨hP.trans h.grows, ?_⟩
    obtain ⟨es, _, hsize⟩ := hP
    have hsize' := h.2
    omega
  · cases h with
    | crashed => exact ⟨hP.trans (Called.grows hE), hP.trans (Called.grows hE)⟩
    | error e => exact hP.trans (Called.grows hE)
    | waiting => exact hE ▸ hP

theorem calls_grows : Calls (Grows : Env L C → Env L C → Prop) Grows where
  refl := Grows.refl
  trans := Grows.trans
  fail := Grows.trans
  waiting := Grows.refl
  evaluate closure env := by
    refine (evaluate_spec closure env).mono (fun _ _ => Called.grows) (fun h env' hE => ?_)
    cases h with
    | crashed => exact hE.elim
    | error e => exact Called.grows hE
    | waiting => exact hE ▸ Grows.refl env
  checkStop env := (checkStop_spec env).mono (fun _ _ h => h ▸ Grows.refl env)
    (fun _ _ h => h.2 ▸ Grows.refl env)
  insist skipped name env := (spends_insist skipped name env).imp fun _ _ h => h.1

theorem Spends.bind {m : EStateM Halt (Env L C) α} {f : α → EStateM Halt (Env L C) β}
    (hm : Spends m) (hf : ∀ a, Keeps Grows Grows (f a)) : Spends (m >>= f) := by
  intro env
  rw [spec_bind]
  refine (hm env).imp fun a env' h => ?_
  obtain ⟨hgrows, hlt⟩ := h
  refine (hf a env').mono (fun _ env'' hgrows' => ?_) (fun _ _ => hgrows.trans)
  refine ⟨hgrows.trans hgrows', ?_⟩
  obtain ⟨es, _, hsize⟩ := hgrows'
  omega

theorem decreasing_while (closure : C) (ss : Stages L C) (skipped : Bool) :
    Decreasing (evaluate closure) (ss.execAll skipped) Env.size := by
  intro env env' env'' hcond hbody
  have hcond := ((evaluate_spec closure env).ok hcond).2
  obtain ⟨es, _, hbody⟩ := (calls_grows.execAll ss skipped env').ok hbody
  omega

/-! ### Crashes in the trace -/

/-- After the crash of a leaf the same leaf is entered. -/
def Reenters (e f : Event L C) : Prop :=
  ∀ name, e = .entered name .crashed → ∃ leafEnd, f = .entered name leafEnd

def Reentered (trace : List (Event L C)) : Prop := trace.IsChain Reenters

/-- The last call is not a crash, except of a leaf in `P`. -/
def Env.CrashedIn (P : L → Prop) (env : Env L C) : Prop :=
  Reentered env.trace ∧ ∀ name, env.trace.getLast? = some (.entered name .crashed) → P name

section
variable {P : L → Prop} {e : Event L C} (h : Called env env' e) (hcrash : env.CrashedIn P)
  (he : ∀ name, P name → ∃ leafEnd, e = .entered name leafEnd)
include h hcrash he

theorem Called.reentered : Reentered env'.trace := by
  rw [h.1]
  refine isChain_append.mpr ⟨hcrash.1, isChain_singleton e, ?_⟩
  intro x hx y hy name hname
  obtain rfl : e = y := by simpa using hy
  rw [hname] at hx
  exact he name (hcrash.2 name hx)

theorem Called.crashedIn {Q : L → Prop} (hQ : ∀ name, e = .entered name .crashed → Q name) :
    env'.CrashedIn Q := by
  refine ⟨h.reentered hcrash he, ?_⟩
  intro name hlast
  rw [h.1, getLast?_append] at hlast
  exact hQ name (by simpa using hlast)

end

/-- No call is left crashed. -/
def Env.Settled (env : Env L C) : Prop := env.CrashedIn fun _ => False

theorem insist_reentered (skipped : Bool) (name : L) (env : Env L C) (h : env.Settled) :
    Spec (insist skipped name) env (fun _ => Env.Settled) (fun _ env' => Reentered env'.trace) := by
  refine insist_rule (P := Env.CrashedIn (· = name)) (fun env' hP => ?_) env ⟨h.1, fun n hn => (h.2 n hn).elim⟩
  have hsame : ∀ leafEnd n, n = name →
      ∃ leafEnd', (Event.entered name leafEnd : Event L C) = .entered n leafEnd' := by
    rintro leafEnd n rfl
    exact ⟨leafEnd, rfl⟩
  refine (performLeaf_spec name env').mono (fun _ env'' h => ?_) (fun h env'' hE => ?_)
  · exact h.crashedIn hP (hsame _) (by simp)
  · cases h with
    | crashed =>
      have hcrash : env''.CrashedIn (· = name) :=
        Called.crashedIn hE hP (hsame _) (fun n hn => by simpa using hn.symm)
      exact ⟨hcrash, hcrash.1⟩
    | error e => exact Called.reentered hE hP (hsame _)
    | waiting => exact hE ▸ hP.1

theorem calls_reentered : Calls (fun env env' : Env L C => env.Settled → env'.Settled)
    (fun env env' => env.Settled → Reentered env'.trace) where
  refl _ h := h
  trans h h' hs := h' (h hs)
  fail h h' hs := h' (h hs)
  waiting _ h := h.1
  evaluate closure env := by
    refine (evaluate_spec closure env).mono (fun _ env' h hs => ?_) (fun h env' hE hs => ?_)
    · exact h.crashedIn hs (fun _ => False.elim) (by simp)
    · cases h with
      | crashed => exact hE.elim
      | error e => exact Called.reentered hE hs (fun _ => False.elim)
      | waiting => exact hE ▸ hs.1
  checkStop env := (checkStop_spec env).mono (fun _ _ h hs => h ▸ hs) (fun _ _ h hs => h.2 ▸ hs.1)
  insist skipped name env := by
    by_cases hs : env.Settled
    · exact (insist_reentered skipped name env hs).mono (fun _ _ h _ => h) (fun _ _ h _ => h)
    · exact (calls_grows.insist skipped name env).mono (fun _ _ _ h => (hs h).elim) (fun _ _ _ h => (hs h).elim)

end Bofuzz.Nested
