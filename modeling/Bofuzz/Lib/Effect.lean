import Mathlib.Logic.Basic

/-! Computations that update a state in place and may fail.

    `EStateM ε σ α` is such a computation: a failure keeps the updates made before it, as a function
    that takes `&mut` arguments and returns early does. `Spec m s Q E` says how `m` started in `s`
    ends: with a value and a state in `Q`, or with an error and a state in `E`. The simp lemmas
    push `Spec` through the program down to the conditions its branches test. -/

namespace Effect

variable {ε σ α β : Type}

/-- `m` started in `s` ends in `Q`, or fails in `E`. -/
def Spec (m : EStateM ε σ α) (s : σ) (Q : α → σ → Prop) (E : ε → σ → Prop) : Prop :=
  match m s with
  | .ok a t => Q a t
  | .error e t => E e t

variable {m : EStateM ε σ α} {s : σ} {Q Q' : α → σ → Prop} {E E' : ε → σ → Prop}

theorem Spec.mono (h : Spec m s Q E) (hQ : ∀ a t, Q a t → Q' a t) (hE : ∀ e t, E e t → E' e t) :
    Spec m s Q' E' := by
  unfold Spec at h ⊢
  split
  · next a t hm => rw [hm] at h; exact hQ a t h
  · next e t hm => rw [hm] at h; exact hE e t h

theorem Spec.imp (h : Spec m s Q E) (hQ : ∀ a t, Q a t → Q' a t) : Spec m s Q' E :=
  h.mono hQ fun _ _ he => he

theorem Spec.total (h : Spec m s Q fun _ _ => False) (hQ : ∀ a t, Q a t → Q' a t) : Spec m s Q' E :=
  h.mono hQ fun _ _ he => he.elim

theorem Spec.and (h : Spec m s Q E) (h' : Spec m s Q' E') :
    Spec m s (fun a t => Q a t ∧ Q' a t) (fun e t => E e t ∧ E' e t) := by
  unfold Spec at h h' ⊢
  cases hm : m s with
  | ok | error => rw [hm] at h h'; exact ⟨h, h'⟩

/-- What a specification says of the value that is returned. -/
theorem Spec.returned (h : Spec m s Q E) :
    Spec m s (fun a t => m s = .ok a t ∧ Q a t) (fun e t => m s = .error e t ∧ E e t) := by
  unfold Spec at h ⊢
  cases hm : m s with
  | ok | error => rw [hm] at h; exact ⟨rfl, h⟩

theorem spec_trivial : Spec m s (fun _ _ => True) (fun _ _ => True) := by
  unfold Spec
  split <;> trivial

variable {t : σ} {a : α}

theorem Spec.ok (h : Spec m s Q E) (hm : m s = .ok a t) : Q a t := by
  unfold Spec at h
  rw [hm] at h
  exact h

theorem Spec.error (h : Spec m s Q E) {e : ε} (hm : m s = .error e t) : E e t := by
  unfold Spec at h
  rw [hm] at h
  exact h

@[simp] theorem spec_pure (a : α) : Spec (pure a) s Q E ↔ Q a s := Iff.rfl

@[simp] theorem spec_bind {R : β → σ → Prop} (f : α → EStateM ε σ β) :
    Spec (m >>= f) s R E ↔ Spec m s (fun a t => Spec (f a) t R E) E := by
  simp only [Spec, bind, EStateM.bind]
  cases m s <;> rfl

@[simp] theorem spec_get {R : σ → σ → Prop} : Spec (get : EStateM ε σ σ) s R E ↔ R s s := Iff.rfl

variable {R : PUnit → σ → Prop}

@[simp] theorem spec_set (t : σ) : Spec (set t : EStateM ε σ PUnit) s R E ↔ R ⟨⟩ t := Iff.rfl

@[simp] theorem spec_modify (f : σ → σ) :
    Spec (modify f : EStateM ε σ PUnit) s R E ↔ R ⟨⟩ (f s) := Iff.rfl

@[simp] theorem spec_modifyGet (f : σ → α × σ) :
    Spec (modifyGet f : EStateM ε σ α) s Q E ↔ Q (f s).1 (f s).2 := Iff.rfl

@[simp] theorem spec_throw (e : ε) : Spec (throw e : EStateM ε σ α) s Q E ↔ E e s := Iff.rfl

variable {f : α → EStateM ε σ β}

theorem bind_ok (h : m s = .ok a t) : (m >>= f) s = f a t := by
  simp only [bind, EStateM.bind, h]

theorem bind_error {e : ε} (h : m s = .error e t) : (m >>= f) s = .error e t := by
  simp only [bind, EStateM.bind, h]

theorem set_bind {f : PUnit → EStateM ε σ β} : (set t >>= f) s = f ⟨⟩ t := rfl

theorem get_bind {f : σ → EStateM ε σ β} : (get >>= f) s = f s s := rfl

theorem bind_eq {m' : EStateM ε σ α} (h : m s = m' t) : (m >>= f) s = (m' >>= f) t := by
  simp only [bind, EStateM.bind, h]

/-- Success in a given state, as a specification. -/
theorem eq_ok_iff_spec {m : EStateM ε σ Unit} :
    m s = .ok () t ↔ Spec m s (fun _ u => u = t) (fun _ _ => False) := by
  unfold Spec
  cases m s <;> simp

theorem spec_iff_exists_ok : Spec m s Q (fun _ _ => False) ↔ ∃ a t, m s = .ok a t ∧ Q a t := by
  unfold Spec
  cases m s <;> simp [and_assoc]

/-- The state that a computation leaves, however it ends. -/
def finalState (m : EStateM ε σ α) (s : σ) : σ :=
  match m s with
  | .ok _ t => t
  | .error _ t => t

theorem finalState_of_spec {P : σ → Prop} (h : Spec m s (fun _ => P) (fun _ => P)) :
    P (finalState m s) := by
  unfold Spec at h
  unfold finalState
  cases hm : m s with
  | ok | error => rw [hm] at h; exact h

/-- Running a computation on one part of a larger state. -/
def zoom {τ : Type} (part : σ → τ) (put : σ → τ → σ) (m : EStateM ε τ α) : EStateM ε σ α :=
  fun s =>
    match m (part s) with
    | .ok a t => .ok a (put s t)
    | .error e t => .error e (put s t)

@[simp] theorem spec_zoom {τ : Type} {part : σ → τ} {put : σ → τ → σ} {m : EStateM ε τ α} :
    Spec (zoom part put m) s Q E ↔
      Spec m (part s) (fun a t => Q a (put s t)) (fun e t => E e (put s t)) := by
  simp only [Spec, zoom]
  cases m (part s) <;> rfl

/-- A pure result or failure, as a computation that leaves the state alone. -/
def ofResult (x : Except ε α) : EStateM ε σ α :=
  match x with
  | .ok a => pure a
  | .error e => throw e

@[simp] theorem spec_ofResult (x : Except ε α) :
    Spec (ofResult x : EStateM ε σ α) s Q E ↔ (∀ a, x = .ok a → Q a s) ∧ (∀ e, x = .error e → E e s) := by
  cases x <;> simp [ofResult]

@[simp] theorem spec_ofResult_ok (a : α) : Spec (ofResult (.ok a) : EStateM ε σ α) s Q E ↔ Q a s :=
  Iff.rfl

variable {x : Except ε α}

theorem map_eq_ofResult {f : α → β} (h : m s = ofResult x t) :
    (f <$> m) s = ofResult (f <$> x) t := by
  cases x <;> simp only [Functor.map, EStateM.map, h] <;> rfl

theorem toOption_eq_some : x.toOption = some a ↔ x = .ok a := by
  cases x <;> simp [Except.toOption]

theorem eq_ok_of_mapError {ε' : Type} {f : ε → ε'} (h : x.mapError f = .ok a) : x = .ok a := by
  cases x with
  | ok b => exact congrArg Except.ok (Except.ok.inj h)
  | error e => cases h

theorem eq_ok_of_isSome (x : Except ε α) (d : α) (h : x.toOption.isSome) :
    x = .ok (x.toOption.getD d) := by
  cases x with
  | ok a => rfl
  | error e => cases h

end Effect
