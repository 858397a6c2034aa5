import Bofuzz.Lib.Effect
import Mathlib.Logic.Relation

/-! Refinement of an abstract transition system by a computation that may fail.

    `abs` reads the abstract state off the concrete one and `S` is the abstract step. A computation
    refines the system when it moves along abstract steps (`Refines`); where it fails, it has moved
    along abstract steps and then perhaps lost something, as `loss` says. -/

namespace Effect
open Relation

variable {ε σ γ α β : Type}

theorem steps_invariant {S : γ → γ → Prop} {I : γ → Prop} (hstep : ∀ c d, S c d → I c → I d)
    {c d : γ} (h : ReflTransGen S c d) (hc : I c) : I d := by
  induction h with
  | refl => exact hc
  | tail _ h ih => exact hstep _ _ h ih

/-- How a failing computation may end: after some steps, or with the loss after them. -/
def Broken (abs : σ → γ) (S : γ → γ → Prop) (loss : γ → γ) (c : γ) (t : σ) : Prop :=
  ∃ d, ReflTransGen S c d ∧ (abs t = d ∨ abs t = loss d)

/-- Every way the computation can end is one the abstract system has. -/
def Refines (abs : σ → γ) (S : γ → γ → Prop) (loss : γ → γ) (m : EStateM ε σ α) (s : σ) : Prop :=
  Spec m s (fun _ t => ReflTransGen S (abs s) (abs t)) (fun _ t => Broken abs S loss (abs s) t)

variable {abs : σ → γ} {S : γ → γ → Prop} {loss : γ → γ} {m : EStateM ε σ α} {s : σ}

theorem Broken.of_steps {c d : γ} {t : σ} (h : ReflTransGen S c d) :
    Broken abs S loss d t → Broken abs S loss c t := by
  rintro ⟨e, hd, he⟩
  exact ⟨e, h.trans hd, he⟩

theorem Broken.of_eq {t : σ} {c : γ} (h : abs t = c) : Broken abs S loss c t :=
  ⟨c, .refl, .inl h⟩

/-- The computation leaves the abstract state alone, however it ends. -/
abbrev Frames (abs : σ → γ) (m : EStateM ε σ α) (s : σ) : Prop :=
  Spec m s (fun _ t => abs t = abs s) (fun _ t => abs t = abs s)

theorem Refines.of_frame (h : Frames abs m s) : Refines abs S loss m s :=
  h.mono (fun _ _ h => by rw [h]) (fun _ _ h => .of_eq h)

variable {f : α → EStateM ε σ β}

/-- Refinement of a sequence: the second part is only met where the first one ends. -/
theorem Refines.bind
    (h : Spec m s (fun a t => ReflTransGen S (abs s) (abs t) ∧ Refines abs S loss (f a) t)
      (fun _ t => Broken abs S loss (abs s) t)) : Refines abs S loss (m >>= f) s := by
  rw [Refines, spec_bind]
  refine h.imp fun a t ⟨hsteps, hf⟩ => ?_
  exact hf.mono (fun _ _ h => hsteps.trans h) (fun _ _ h => h.of_steps hsteps)

theorem Refines.seq (h : Refines abs S loss m s) (hf : ∀ a t, Refines abs S loss (f a) t) :
    Refines abs S loss (m >>= f) s :=
  .bind (h.imp fun a t ht => ⟨ht, hf a t⟩)

theorem Frames.bind (h : Frames abs m s) (hf : ∀ a t, abs t = abs s → Refines abs S loss (f a) t) :
    Refines abs S loss (m >>= f) s :=
  .bind (h.mono (fun a t ht => ⟨by rw [ht], hf a t ht⟩) fun _ _ h => .of_eq h)

end Effect
