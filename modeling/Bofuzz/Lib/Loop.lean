import Mathlib.Order.WellFounded

/-! Programs with `while` loops, and that they come to an end.

    A program is run under a bound on the rounds of each of its loops and has no result if a loop
    meets the bound. `Ends m P` is total correctness: there is one result, every large enough bound
    gives it, no bound gives another, and `P` holds of it. The rules follow the program: `pure`,
    `bind`, `foldlM` for a loop over a list with an invariant of what is done, `whileLoop` for a
    loop with an invariant and a variant. -/

namespace Loop

/-- A program: its result under a bound on the rounds. -/
abbrev Prog (α : Type) := ReaderT ℕ Option α

variable {α β σ : Type} (cond : σ → Bool)

/-- At most `n` rounds. -/
def rounds (body : σ → σ) : ℕ → σ → Option σ
  | 0, s => if cond s then none else some s
  | n + 1, s => if cond s then rounds body n (body s) else some s

/-- `while cond { body }`. -/
def whileLoop (body : σ → σ) (s : σ) : Prog σ := fun bound =>
  rounds cond body bound s

/-- At most `n` rounds of a body that has loops of its own. -/
def roundsM (body : σ → Prog σ) : ℕ → σ → Prog σ
  | 0, s => fun _ => if cond s then none else some s
  | n + 1, s => if cond s then body s >>= roundsM body n else pure s

/-- `while cond { body }` where the body has loops of its own. -/
def whileLoopM (body : σ → Prog σ) (s : σ) : Prog σ := fun bound =>
  roundsM cond body bound s bound

/-- A step that has no result for some inputs. -/
def ofOption (o : Option α) : Prog α := fun _ => o

/-- The program comes to an end with a result that `P` holds of. -/
def Ends (m : Prog α) (P : α → Prop) : Prop :=
  ∃ a, P a ∧ (∀ bound, m bound = none ∨ m bound = some a) ∧ ∃ n, ∀ bound ≥ n, m bound = some a

variable {m : Prog α} {P Q : α → Prop} {a : α}

/-- What is said of all items that are done, when one more is. -/
theorem forall_mem_concat {p : α → Prop} {done : List α} :
    (∀ x ∈ done ++ [a], p x) ↔ (∀ x ∈ done, p x) ∧ p a := by
  rw [List.forall_mem_append, List.forall_mem_singleton]

theorem bind_apply (m : Prog α) (f : α → Prog β) (bound : ℕ) :
    (m >>= f) bound = (m bound).bind fun a => f a bound := rfl

namespace Ends

theorem pure (h : P a) : Ends (Pure.pure a) P :=
  ⟨a, h, fun _ => .inr rfl, 0, fun _ _ => rfl⟩

theorem bind {f : α → Prog β} {P : β → Prop} (hm : Ends m Q) (hf : ∀ a, Q a → Ends (f a) P) :
    Ends (m >>= f) P := by
  obtain ⟨a, ha, hsome, n, hn⟩ := hm
  obtain ⟨b, hb, hsome', n', hn'⟩ := hf a ha
  refine ⟨b, hb, fun bound => ?_, max n n', fun bound hbound => ?_⟩
  · rw [bind_apply]
    rcases hsome bound with h | h
    · exact .inl (by rw [h]; rfl)
    · rw [h]
      exact hsome' bound
  · rw [bind_apply, hn bound (le_trans (le_max_left n n') hbound)]
    exact hn' bound (le_trans (le_max_right n n') hbound)

theorem ofOption {o : Option α} (ho : o = some a) (h : P a) : Ends (ofOption o) P :=
  ⟨a, h, fun _ => .inr ho, 0, fun _ _ => ho⟩

theorem mono (h : Ends m P) (himp : ∀ a, P a → Q a) : Ends m Q := by
  obtain ⟨a, ha, hrest⟩ := h
  exact ⟨a, himp a ha, hrest⟩

/-- Whatever bound gives a result, it is the one the program ends with. -/
theorem of_eq_some {bound : ℕ} (h : Ends m P) (hm : m bound = some a) : P a := by
  obtain ⟨b, hb, hsome, -⟩ := h
  rcases hsome bound with hnone | hb'
  · rw [hnone] at hm
    cases hm
  · rw [hb'] at hm
    cases hm
    exact hb

theorem eq_of_eq_some {bound : ℕ} (h : Ends m P) (hm : m bound = some a) : Ends m (· = a) := by
  obtain ⟨b, -, hrest⟩ := h
  have hb : Ends m (b = ·) := ⟨b, rfl, hrest⟩
  exact ⟨b, of_eq_some hb hm, hrest⟩

variable {s : σ} {I : List α → σ → Prop} {f : σ → α → Prog σ}

/-- A loop over a list: the invariant speaks of the items that are done. -/
theorem foldlM_split {as : List α} (hs : I [] s)
    (hstep : ∀ done a rest s, as = done ++ a :: rest → I done s → Ends (f s a) (I (done ++ [a]))) :
    Ends (as.foldlM f s) (I as) := by
  have hrun : ∀ (rest done : List α) (s : σ), as = done ++ rest → I done s →
      Ends (rest.foldlM f s) (I as) := by
    intro rest
    induction rest with
    | nil =>
      intro done s hdone hI
      rw [List.append_nil] at hdone
      rw [hdone]
      exact pure hI
    | cons a rest ih =>
      intro done s hdone hI
      refine bind (hstep done a rest s hdone hI) fun t ht => ih (done ++ [a]) t ?_ ht
      rw [hdone, List.append_assoc, List.singleton_append]
  exact hrun as [] s rfl hs

theorem foldlM {as : List α} (hs : I [] s)
    (hstep : ∀ done, ∀ a ∈ as, ∀ s, I done s → Ends (f s a) (I (done ++ [a]))) :
    Ends (as.foldlM f s) (I as) :=
  foldlM_split hs fun done a _ s has =>
    hstep done a (has ▸ List.mem_append_right done List.mem_cons_self) s

end Ends

variable {cond : σ → Bool} {I : σ → Prop}

section
variable {γ : Type} [LT γ] [WellFoundedLT γ] {body : σ → Prog σ} {s : σ} (size : σ → γ) (hs : I s)
  (hstep : ∀ s, I s → cond s = true → Ends (body s) fun t => I t ∧ size t < size s)
include hs hstep

/-- One result, which every large enough number of rounds with a large enough bound gives. -/
theorem roundsM_ends : ∃ t, (I t ∧ cond t = false) ∧
      (∀ n bound, roundsM cond body n s bound = none ∨ roundsM cond body n s bound = some t) ∧
      ∃ n₀, ∀ n ≥ n₀, ∀ bound ≥ n₀, roundsM cond body n s bound = some t := by
  induction hk : size s using WellFoundedLT.induction generalizing s with
  | ind k ih =>
    subst hk
    cases hcond : cond s with
    | false =>
      have hnow : ∀ n bound, roundsM cond body n s bound = some s := by
        intro n bound
        cases n with
        | zero => simp [roundsM, hcond]
        | succ n =>
          simp only [roundsM, hcond]
          rfl
      exact ⟨s, ⟨hs, hcond⟩, fun n bound => .inr (hnow n bound), 0, fun n _ bound _ => hnow n bound⟩
    | true =>
      have hround : ∀ n bound, roundsM cond body (n + 1) s bound =
          (body s bound).bind fun u => roundsM cond body n u bound := by
        intro n bound
        simp only [roundsM, hcond, if_true]
        rfl
      obtain ⟨u, ⟨hu, hlt⟩, hsome, m, hm⟩ := hstep s hs hcond
      obtain ⟨t, ht, hsome', m', hm'⟩ := ih (size u) hlt hu rfl
      refine ⟨t, ht, ?_, max m (m' + 1), ?_⟩
      · rintro (_ | n) bound
        · simp [roundsM, hcond]
        rw [hround]
        rcases hsome bound with h | h
        · exact .inl (by rw [h]; rfl)
        · rw [h]
          exact hsome' n bound
      · rintro (_ | n) hn bound hbound
        · omega
        · rw [hround, hm bound (by omega)]
          exact hm' n (by omega) bound (by omega)

/-- A loop whose rounds come to an end, keep the invariant `I` and make the variant smaller. -/
theorem Ends.whileLoopM : Ends (whileLoopM cond body s) fun t => I t ∧ cond t = false := by
  obtain ⟨t, ht, hsome, n, hn⟩ := roundsM_ends size hs hstep
  exact ⟨t, ht, fun bound => hsome bound bound, n, fun bound hbound => hn bound hbound bound hbound⟩

end

theorem rounds_eq_roundsM (cond : σ → Bool) (body : σ → σ) (bound : ℕ) : ∀ (n : ℕ) (s : σ),
    rounds cond body n s = roundsM cond (fun s => pure (body s)) n s bound
  | 0, _ => rfl
  | n + 1, s => by
    rw [rounds, roundsM]
    split_ifs
    · exact rounds_eq_roundsM cond body bound n (body s)
    · rfl

/-- A loop whose rounds keep the invariant `I` and make the variant smaller. -/
theorem Ends.whileLoop {γ : Type} [LT γ] [WellFoundedLT γ] {body : σ → σ} {s : σ}
    (size : σ → γ) (hs : I s)
    (hstep : ∀ s, I s → cond s = true → I (body s) ∧ size (body s) < size s) :
    Ends (whileLoop cond body s) fun t => I t ∧ cond t = false := by
  have heq : Loop.whileLoop cond body s = Loop.whileLoopM cond (fun s => Pure.pure (body s)) s :=
    funext fun bound => rounds_eq_roundsM cond body bound bound s
  rw [heq]
  exact .whileLoopM size hs fun s hI hcond => .pure (hstep s hI hcond)

/-- A loop whose condition stays true has no last round. -/
theorem rounds_eq_none {body : σ → σ} {s : σ}
    (hstep : ∀ s, I s → cond s = true ∧ I (body s)) (hs : I s) (n : ℕ) :
    rounds cond body n s = none := by
  induction n generalizing s with
  | zero => rw [rounds, if_pos (hstep s hs).1]
  | succ n ih => rw [rounds, if_pos (hstep s hs).1, ih (hstep s hs).2]

end Loop
