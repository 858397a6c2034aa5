import Bofuzz.Lib.Effect
import Mathlib.Data.Nat.Notation

/-! Loops whose rounds use up a resource.

    `rounds` is `while cond { body }` with a bound on the number of rounds, and `loop` takes the
    size of what is left as the bound. If every round makes the size smaller, the bound is never
    met, and `loop` satisfies the equation of the loop. -/

namespace Rounds
open Effect

variable {ε σ : Type} (out : ε) (cond : EStateM ε σ Bool) (body : EStateM ε σ Unit) (size : σ → ℕ)

/-- At most `n` rounds. -/
def rounds : ℕ → EStateM ε σ Unit
  | 0 => throw out
  | n + 1 => do
    if ← cond then
      body
      rounds n
    else pure ()

/-- As many rounds as the state has room for. -/
def loop : EStateM ε σ Unit := fun s => rounds out cond body (size s + 1) s

/-- A round leaves less than it found. -/
def Decreasing : Prop := ∀ s t u, cond s = .ok true t → body t = .ok () u → size u < size s

variable {out cond body size} {s t : σ}

theorem rounds_true (n : ℕ) (h : cond s = .ok true t) :
    rounds out cond body (n + 1) s = (do body; rounds out cond body n) t :=
  bind_ok h

theorem rounds_false (n : ℕ) (h : cond s = .ok false t) :
    rounds out cond body (n + 1) s = .ok () t :=
  bind_ok h

theorem rounds_error (n : ℕ) {e : ε} (h : cond s = .error e t) :
    rounds out cond body (n + 1) s = .error e t :=
  bind_error h

/-- Enough rounds are as good as more. -/
theorem rounds_eq (h : Decreasing cond body size) : ∀ (n m : ℕ) (s : σ), size s < n → size s < m →
    rounds out cond body n s = rounds out cond body m s
  | 0, _, _, hn, _ => absurd hn (Nat.not_lt_zero _)
  | _ + 1, 0, _, _, hm => absurd hm (Nat.not_lt_zero _)
  | n + 1, m + 1, s, hn, hm => by
    cases hcond : cond s with
    | error e t => rw [rounds_error n hcond, rounds_error m hcond]
    | ok b t =>
      cases b with
      | false => rw [rounds_false n hcond, rounds_false m hcond]
      | true =>
        rw [rounds_true n hcond, rounds_true m hcond]
        cases hbody : body t with
        | error e u => rw [bind_error hbody, bind_error hbody]
        | ok _ u =>
          have hlt := h s t u hcond hbody
          rw [bind_ok hbody, bind_ok hbody]
          exact rounds_eq h n m u (by omega) (by omega)

theorem loop_true (h : Decreasing cond body size) (hcond : cond s = .ok true t) :
    loop out cond body size s = (do body; loop out cond body size) t := by
  rw [loop, rounds_true _ hcond]
  cases hbody : body t with
  | error e u => rw [bind_error hbody, bind_error hbody]
  | ok _ u =>
    rw [bind_ok hbody, bind_ok hbody]
    exact rounds_eq h _ _ u (h s t u hcond hbody) (Nat.lt_succ_self _)

theorem loop_false (hcond : cond s = .ok false t) : loop out cond body size s = .ok () t :=
  rounds_false _ hcond

theorem loop_error {e : ε} (hcond : cond s = .error e t) : loop out cond body size s = .error e t :=
  rounds_error _ hcond

end Rounds
