import Mathlib.Data.List.Basic

/-! Runs of a deterministic step function over a list of inputs.

    A system is a step `σ → α → σ`; a run feeds it a list of inputs, everything that happens
    outside the system (clock, arrivals, draws, crashes) being part of the input. `Along C` says
    that every input of a run meets `C` in the state it arrives in, and `total f` adds up what the
    inputs contribute in the states they arrive in. Five induction rules turn a
    step lemma into a statement about every run: `along_induct` for what is kept, `forall_take_iff`
    for what is kept under a condition and never without it, `foldl_iff` for what is added,
    `foldl_set` for what is set once, `foldl_grow` for how a state stands to all that was added. -/

namespace Run

variable {σ α : Type*}

/-- The state a list of inputs leads to. -/
def run (step : σ → α → σ) (s : σ) (as : List α) : σ := as.foldl step s

/-- Every input of the run meets `C` in the state it arrives in. -/
def Along (step : σ → α → σ) (C : σ → α → Prop) : σ → List α → Prop
  | _, [] => True
  | s, a :: as => C s a ∧ Along step C (step s a) as

instance Along.decidable {step : σ → α → σ} {C : σ → α → Prop} [∀ s a, Decidable (C s a)] :
    (s : σ) → (as : List α) → Decidable (Along step C s as)
  | _, [] => .isTrue trivial
  | s, a :: as =>
    haveI : Decidable (Along step C (step s a) as) := Along.decidable (step s a) as
    inferInstanceAs (Decidable (C s a ∧ Along step C (step s a) as))

variable {step : σ → α → σ} {C : σ → α → Prop} {I : σ → Prop}

/-- An invariant that every allowed step keeps holds after every allowed run. -/
theorem along_induct (hstep : ∀ s a, I s → C s a → I (step s a)) :
    ∀ (as : List α) (s : σ), I s → Along step C s as → I (run step s as)
  | [], _, hs, _ => hs
  | a :: as, s, hs, ⟨hc, hrest⟩ => along_induct hstep as (step s a) (hstep s a hs hc) hrest

/-- If the allowed steps are exactly those that keep an invariant, then the allowed runs are exactly
    those that keep it all the way. -/
theorem forall_take_iff (hstep : ∀ s a, I s → (I (step s a) ↔ C s a)) :
    ∀ (as : List α) (s : σ), I s → ((∀ n, I (run step s (as.take n))) ↔ Along step C s as)
  | [], s, hs => by simpa [Along, run] using hs
  | a :: as, s, hs => by
    constructor
    · intro h
      have hfirst : I (step s a) := h 1
      exact ⟨(hstep s a hs).mp hfirst, (forall_take_iff hstep as (step s a) hfirst).mp fun n => h (n + 1)⟩
    · rintro ⟨hc, hrest⟩ n
      have hfirst := (hstep s a hs).mpr hc
      cases n with
      | zero => exact hs
      | succ n => exact (forall_take_iff hstep as (step s a) hfirst).mpr hrest n

theorem run_take_succ {as : List α} {n : ℕ} {a : α} (h : as[n]? = some a) (s : σ) :
    run step s (as.take (n + 1)) = step (run step s (as.take n)) a := by
  rw [List.take_add_one, h, run, Option.toList_some, List.foldl_append]
  rfl

/-- A condition holds along a run if it holds of every input, in the state its predecessors lead
    to. -/
theorem along_iff_forall_getElem? : ∀ (as : List α) (s : σ),
    Along step C s as ↔ ∀ n a, as[n]? = some a → C (run step s (as.take n)) a
  | [], _ => by simp [Along]
  | b :: as, s => by
    rw [Along, along_iff_forall_getElem? as (step s b)]
    constructor
    · rintro ⟨hb, hrest⟩ n a ha
      cases n with
      | zero =>
        cases ha
        exact hb
      | succ n => exact hrest n a ha
    · intro h
      exact ⟨h 0 b rfl, fun n a ha => h (n + 1) a ha⟩

/-- What the steps of a run contribute in all, `f` being the contribution of one step. -/
def total (step : σ → α → σ) (f : σ → α → ℕ) : σ → List α → ℕ
  | _, [] => 0
  | s, a :: as => f s a + total step f (step s a) as

theorem along_of_forall : ∀ {as : List α} {s : σ}, (∀ a ∈ as, ∀ s, C s a) → Along step C s as
  | [], _, _ => trivial
  | a :: _, _, h => ⟨h a List.mem_cons_self _, along_of_forall fun b hb => h b (.tail a hb)⟩

/-- A fold that adds what its items say, and nothing else. -/
theorem foldl_iff {P : σ → Prop} {Q : α → Prop} (h : ∀ s a, P (step s a) ↔ P s ∨ Q a) :
    ∀ (as : List α) (s : σ), P (as.foldl step s) ↔ P s ∨ ∃ a ∈ as, Q a
  | [], s => by simp
  | a :: as, s => by
    rw [List.foldl_cons, foldl_iff h as, h, or_assoc, List.exists_mem_cons_iff]

variable {β : Type*}

/-- A fold in which just one item says what is at a place. -/
theorem foldl_set {g : σ → Option β} {p : α → Prop} [DecidablePred p] {val : α → β}
    (h : ∀ s a, g (step s a) = if p a then some (val a) else g s) :
    ∀ {as : List α} {s : σ}, as.Pairwise (fun a b => p a → ¬ p b) → ∀ a ∈ as, p a →
      g (as.foldl step s) = some (val a)
  | [], _, _, _, ha, _ => absurd ha List.not_mem_nil
  | b :: as, s, hpair, a, ha, hp => by
    obtain ⟨hfirst, hrest⟩ := List.pairwise_cons.mp hpair
    rcases List.mem_cons.mp ha with rfl | ha
    · refine List.foldlRecOn (motive := fun s => g s = some (val a)) as step ?_ fun s hs c hc => ?_
      · rw [h, if_pos hp]
      · rw [h, if_neg (hfirst c hc hp), hs]
    · exact foldl_set h hrest a ha hp

/-- A table in which the items of a list set their places, each to the value of its place. -/
theorem getElem?_foldl_set (key : α → ℕ) (val : ℕ → β) (as : List α) (table : List β) (i : ℕ) :
    (as.foldl (fun table a => table.set (key a) (val (key a))) table)[i]? =
      if i ∈ as.map key then table[i]?.map fun _ => val i else table[i]? := by
  induction as generalizing table with
  | nil => simp
  | cons a as ih =>
    rw [List.foldl_cons, ih, List.getElem?_set]
    by_cases hi : key a = i
    · subst hi
      by_cases hlt : key a < table.length
      · simp [hlt]
      · simp [hlt]
    · rw [if_neg hi]
      refine if_congr ?_ rfl rfl
      rw [List.map_cons, List.mem_cons, or_iff_right (Ne.symm hi)]

/-- A fold whose state stands in the relation `R` to all that its items have said so far. -/
theorem foldl_grow {R : σ → (β → Prop) → Prop} {Q : α → β → Prop}
    (h : ∀ s P a, R s P → R (step s a) fun x => P x ∨ Q a x) :
    ∀ (as : List α) (s : σ) (P : β → Prop), R s P → R (as.foldl step s) fun x => P x ∨ ∃ a ∈ as, Q a x
  | [], s, P, hs => by simpa using hs
  | a :: as, s, P, hs => by
    have ih := foldl_grow h as (step s a) _ (h s P a hs)
    simpa only [List.foldl_cons, or_assoc, List.exists_mem_cons_iff] using ih

end Run
