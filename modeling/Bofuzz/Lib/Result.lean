import Mathlib.Data.List.Forall2

/-! When a computation that may fail succeeds.

    The simp lemmas turn `m = .ok a`, for a program `m` written with `do`, into the results of its
    parts. -/

namespace Result
open List

variable {ε α β : Type} {f : α → Except ε β}

@[simp] theorem bind_eq_ok {x : Except ε α} {b : β} :
    (x >>= f) = .ok b ↔ ∃ a, x = .ok a ∧ f a = .ok b := by
  cases x with
  | ok | error => simp [bind, Except.bind]

@[simp] theorem pure_eq_ok {a b : α} : (pure a : Except ε α) = .ok b ↔ a = b := by
  simp [pure, Except.pure]

theorem exists_bind_eq_ok {x : Except ε α} :
    (∃ b, (x >>= f) = .ok b) ↔ ∃ a, x = .ok a ∧ ∃ b, f a = .ok b := by
  simp only [bind_eq_ok]
  rw [exists_comm]
  simp only [exists_and_left]

theorem exists_of_forall₂ {R : α → β → Prop} {xs : List α} {ys : List β}
    (h : List.Forall₂ R xs ys) :
    ∀ x ∈ xs, ∃ y, R x y := by
  induction h with
  | nil => simp
  | cons hxy _ ih => exact forall_mem_cons.mpr ⟨⟨_, hxy⟩, ih⟩

theorem exists_pure_eq_ok {a : α} : ∃ b, (pure a : Except ε α) = .ok b := ⟨a, rfl⟩

theorem mapM_eq_ok : ∀ {xs : List α} {ys : List β},
    xs.mapM f = .ok ys ↔ List.Forall₂ (fun x y => f x = .ok y) xs ys
  | [], ys => by
    rw [mapM_nil, pure_eq_ok, forall₂_nil_left_iff, eq_comm]
  | x :: xs, ys => by
    have hrest : ∀ rest, xs.mapM f = .ok rest ↔ List.Forall₂ (fun x y => f x = .ok y) xs rest :=
      fun _ => mapM_eq_ok
    rw [mapM_cons, forall₂_cons_left_iff]
    simp only [bind_eq_ok, pure_eq_ok, hrest]
    constructor
    · rintro ⟨y, hy, rest, hrest, rfl⟩
      exact ⟨y, rest, hy, hrest, rfl⟩
    · rintro ⟨y, rest, hy, hrest, rfl⟩
      exact ⟨y, hy, rest, hrest, rfl⟩

theorem exists_mapM_eq_ok : ∀ {xs : List α}, (∃ ys, xs.mapM f = .ok ys) ↔ ∀ x ∈ xs, ∃ y, f x = .ok y
  | [] => by simp
  | x :: xs => by
    have hrest : (∃ ys, xs.mapM f = .ok ys) ↔ ∀ x ∈ xs, ∃ y, f x = .ok y := exists_mapM_eq_ok
    simp only [mapM_cons, bind_eq_ok, pure_eq_ok, forall_mem_cons, ← hrest]
    constructor
    · rintro ⟨_, y, hy, rest, hrest, -⟩
      exact ⟨⟨y, hy⟩, rest, hrest⟩
    · rintro ⟨⟨y, hy⟩, rest, hrest⟩
      exact ⟨_, y, hy, rest, hrest, rfl⟩

/-- The error of a list of computations is the error of one of them. -/
theorem exists_of_mapM_eq_error {e : ε} {xs : List α} (h : xs.mapM f = .error e) :
    ∃ x ∈ xs, f x = .error e := by
  induction xs with
  | nil => cases h
  | cons x xs ih =>
    rw [mapM_cons] at h
    cases hx : f x with
    | error e' =>
      rw [hx] at h
      cases h
      exact ⟨x, mem_cons_self, hx⟩
    | ok y =>
      rw [hx] at h
      cases hrest : xs.mapM f with
      | error e' =>
        simp only [bind, Except.bind, hrest] at h
        cases h
        obtain ⟨x', hmem, hx'⟩ := ih hrest
        exact ⟨x', mem_cons_of_mem _ hmem, hx'⟩
      | ok ys =>
        simp only [bind, Except.bind, hrest] at h
        cases h

end Result
