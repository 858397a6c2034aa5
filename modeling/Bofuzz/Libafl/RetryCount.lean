import Bofuzz.Error
import Bofuzz.Lib.Effect
import Mathlib.Data.UInt

/-! Stages that are retried a fixed number of times after crashes (`libafl/src/stages/mod.rs`).

    The counter of a stage is stored with the state and survives a crash of its `perform`; the
    restarted process comes back to the same testcase and counts down. A call that returns clears
    the counter. `visit_ends` follows one visit of a testcase through all its crashes, by induction
    on the tries that are left. -/

namespace Bofuzz.RetryCount
open Effect Nat List

/-- `RetryCountRestartHelper`. -/
structure Helper where
  triesRemaining : Option UInt64
  skipped : Finset ℕ

/-- How a stage stops before its end. -/
inductive Halt where
  | crashed
  | error (e : Error)
  /-- The bound on the restarts is met. -/
  | waiting

/-- The named metadata of the stage, and the testcases that `perform` was started on. -/
structure Proc where
  helper : Option Helper
  started : List ℕ

/-- `should_restart`, and `no_retry` for one retry. The sum wraps around. -/
def shouldRestart (maxRetries : UInt64) (current : Option ℕ) : EStateM Halt Proc Bool := do
  match current with
  | none => throw (.error (.illegalState .noCorpusId))
  | some corpusId =>
    let initial := maxRetries + 1
    let s ← get
    let metadata := s.helper.getD ⟨some initial, ∅⟩
    set { s with helper := some metadata }
    let tries := metadata.triesRemaining.getD initial
    if tries = 0 then throw (.error (.illegalState .noRetriesLeft))
    else
      let triesRemaining := tries - 1
      if triesRemaining = 0 then
        set { s with helper := some ⟨some triesRemaining, insert corpusId metadata.skipped⟩ }
        return false
      else
        set { s with helper := some ⟨some triesRemaining, metadata.skipped⟩ }
        return decide (corpusId ∉ metadata.skipped)

/-- `clear_progress`. -/
def clearProgress : EStateM Halt Proc Unit := do
  let s ← get
  match s.helper with
  | none => throw (.error (.keyNotFound (.typeNotFound "libafl::stages::RetryCountRestartHelper")))
  | some metadata => set { s with helper := some { metadata with triesRemaining := none } }

/-- The `perform` of a stage, as far as the helper is concerned: it crashes or not. -/
def perform (corpusId : ℕ) (crashes : Bool) : EStateM Halt Proc Unit := do
  modify fun s => { s with started := s.started ++ [corpusId] }
  if crashes then throw .crashed

/-- `perform_restartable`. -/
def performRestartable (maxRetries : UInt64) (corpusId : ℕ) (crashes : Bool) :
    EStateM Halt Proc Unit := do
  if ← shouldRestart maxRetries (some corpusId) then perform corpusId crashes
  clearProgress

section
variable (maxRetries : UInt64) (crashes : ℕ → Bool)

/-- A visit of a testcase: after a crash the restarted process performs the stage on the same
    testcase. `crashes` says of each start, by its number, whether it crashes. -/
def visit (corpusId : ℕ) : ℕ → EStateM Halt Proc Unit
  | 0 => throw .waiting
  | bound + 1 => fun s =>
    match performRestartable maxRetries corpusId (crashes s.started.length) s with
    | .error .crashed s' => visit corpusId bound s'
    | out => out

/-- Visits of one testcase after the other. -/
def visits (bound : ℕ) : List ℕ → EStateM Halt Proc Unit
  | [] => pure ()
  | corpusId :: rest => do
    visit maxRetries crashes corpusId bound
    visits bound rest

end

/-- The stage has not been performed yet. -/
def fresh : Proc := ⟨none, []⟩

/-! ### One call -/

/-- The testcases that are skipped. -/
def Proc.skipped (s : Proc) : Finset ℕ := (s.helper.map Helper.skipped).getD ∅

/-- The tries that the next call finds. -/
def Proc.tries (s : Proc) (maxRetries : UInt64) : UInt64 :=
  (s.helper.bind Helper.triesRemaining).getD (maxRetries + 1)

variable {maxRetries : UInt64} {corpusId : ℕ} {s : Proc}

theorem getD_helper (s : Proc) (maxRetries : UInt64) :
    (s.helper.getD ⟨some (maxRetries + 1), ∅⟩).triesRemaining.getD (maxRetries + 1) =
      s.tries maxRetries ∧
      (s.helper.getD ⟨some (maxRetries + 1), ∅⟩).skipped = s.skipped := by
  obtain ⟨helper, started⟩ := s
  cases helper with
  | none | some => exact ⟨rfl, rfl⟩

theorem shouldRestart_exhausted (corpusId : ℕ) (h : s.tries maxRetries = 0) :
    ∃ s', shouldRestart maxRetries (some corpusId) s = .error (.error (.illegalState .noRetriesLeft)) s' := by
  rw [← (getD_helper s maxRetries).1] at h
  refine ⟨{ s with helper := some (s.helper.getD ⟨some (maxRetries + 1), ∅⟩) }, ?_⟩
  simp only [shouldRestart, get_bind, set_bind, if_pos h]
  rfl

theorem shouldRestart_eq (corpusId : ℕ) (h : s.tries maxRetries ≠ 0) :
    shouldRestart maxRetries (some corpusId) s =
      if s.tries maxRetries - 1 = 0 then
        .ok false { s with helper := some ⟨some (s.tries maxRetries - 1), insert corpusId s.skipped⟩ }
      else
        .ok (decide (corpusId ∉ s.skipped))
          { s with helper := some ⟨some (s.tries maxRetries - 1), s.skipped⟩ } := by
  obtain ⟨htries, hskipped⟩ := getD_helper s maxRetries
  simp only [shouldRestart, get_bind, set_bind, htries, hskipped, if_neg h]
  split
  · rfl
  · rfl

variable {t : Proc}

theorem performRestartable_skips {crash : Bool}
    (h : shouldRestart maxRetries (some corpusId) s = .ok false t) :
    performRestartable maxRetries corpusId crash s = clearProgress t := by
  rw [performRestartable, bind_ok h]
  rfl

/-- The start is logged, and the counter is cleared unless the stage crashes. -/
theorem performRestartable_starts (crash : Bool)
    (h : shouldRestart maxRetries (some corpusId) s = .ok true t) :
    performRestartable maxRetries corpusId crash s =
      if crash then .error .crashed { t with started := t.started ++ [corpusId] }
      else clearProgress { t with started := t.started ++ [corpusId] } := by
  rw [performRestartable, bind_ok h]
  cases crash with
  | false | true => rfl

/-! ### One visit -/

/-- A visit with `k` starts, of at most `limit`. -/
structure Visit (crashes : ℕ → Bool) (corpusId limit k : ℕ) (s s' : Proc) : Prop where
  starts_le : k ≤ limit
  starts : s'.started = s.started ++ List.replicate k corpusId
  reset : ∃ skipped, s'.helper = some ⟨none, skipped⟩
  not_again : corpusId ∈ s.skipped → k = 0
  exhausted : (∀ j < limit, crashes (s.started.length + j) = true) → corpusId ∈ s'.skipped
  only_exhausted : corpusId ∉ s.skipped → corpusId ∈ s'.skipped →
    k = limit ∧ ∀ j < limit, crashes (s.started.length + j) = true
  skipped_eq : s'.skipped = s.skipped ∨ s'.skipped = insert corpusId s.skipped

variable {crashes : ℕ → Bool}

theorem toNat_tries_sub_one {tries : UInt64} {limit : ℕ} (h : tries.toNat = limit + 1) :
    tries ≠ 0 ∧ (tries - 1).toNat = limit := by
  have hle : (1 : UInt64) ≤ tries := by
    rw [UInt64.le_iff_toNat_le, h]
    exact le_add_left 1 limit
  constructor
  · rintro rfl
    cases h
  · rw [UInt64.toNat_sub_of_le _ _ hle, h]
    rfl

variable {bound : ℕ}

theorem visit_of_ok
    (h : performRestartable maxRetries corpusId (crashes s.started.length) s = .ok () t) :
    visit maxRetries crashes corpusId (bound + 1) s = .ok () t := by
  simp only [visit, h]

theorem visit_of_crashed
    (h : performRestartable maxRetries corpusId (crashes s.started.length) s = .error .crashed t) :
    visit maxRetries crashes corpusId (bound + 1) s =
      visit maxRetries crashes corpusId bound t := by
  simp only [visit, h]

theorem visit_exhausted (crashes : ℕ → Bool) (corpusId bound : ℕ) (h : s.tries maxRetries = 0) :
    ∃ t, visit maxRetries crashes corpusId (bound + 1) s = .error (.error (.illegalState .noRetriesLeft)) t := by
  obtain ⟨t, herror⟩ := shouldRestart_exhausted corpusId h
  have hperform : performRestartable maxRetries corpusId (crashes s.started.length) s =
      .error (.error (.illegalState .noRetriesLeft)) t := bind_error herror
  exact ⟨t, by simp only [visit, hperform]⟩

theorem visit_ends {limit : ℕ} (htries : (s.tries maxRetries).toNat = limit + 1)
    (hbound : limit < bound) :
    ∃ k s', visit maxRetries crashes corpusId bound s = .ok () s' ∧ Visit crashes corpusId limit k s s' := by
  induction limit generalizing s bound with
  | zero =>
    -- no tries are left: the testcase is recorded and skipped
    obtain ⟨bound, rfl⟩ := exists_eq_succ_of_ne_zero (ne_zero_of_lt hbound)
    obtain ⟨hne, hsub⟩ := toNat_tries_sub_one htries
    have hzero : s.tries maxRetries - 1 = 0 := UInt64.toNat_inj.mp hsub
    have hcall := shouldRestart_eq corpusId hne
    rw [if_pos hzero] at hcall
    refine ⟨0, _, visit_of_ok (performRestartable_skips hcall), ?_⟩
    exact ⟨le_refl _, (append_nil _).symm, ⟨_, rfl⟩, fun _ => rfl, fun _ => Finset.mem_insert_self _ _,
      fun _ _ => ⟨rfl, fun j hj => absurd hj (not_lt_zero j)⟩, .inr rfl⟩
  | succ limit ih =>
    obtain ⟨bound, rfl⟩ := exists_eq_succ_of_ne_zero (ne_zero_of_lt hbound)
    obtain ⟨hne, hsub⟩ := toNat_tries_sub_one htries
    have hsome : s.tries maxRetries - 1 ≠ 0 := fun h => by rw [h] at hsub; cases hsub
    have hcall := shouldRestart_eq corpusId hne
    rw [if_neg hsome] at hcall
    by_cases hskip : corpusId ∈ s.skipped
    · rw [decide_eq_false (not_not_intro hskip)] at hcall
      refine ⟨0, _, visit_of_ok (performRestartable_skips hcall), ?_⟩
      exact ⟨zero_le _, (append_nil _).symm, ⟨_, rfl⟩, fun _ => rfl, fun _ => hskip,
        fun h => absurd hskip h, .inl rfl⟩
    rw [decide_eq_true hskip] at hcall
    have hperform := performRestartable_starts (crashes s.started.length) hcall
    cases hcrash : crashes s.started.length with
    | false =>
      rw [if_neg (by rw [hcrash]; exact Bool.false_ne_true)] at hperform
      refine ⟨1, _, visit_of_ok hperform, ?_⟩
      refine ⟨le_add_left 1 limit, rfl, ⟨_, rfl⟩, fun h => absurd h hskip, fun hall => ?_,
        fun _ h => absurd h hskip, .inl rfl⟩
      exact absurd ((hall 0 (succ_pos limit)).symm.trans hcrash) (by decide)
    | true =>
      rw [if_pos hcrash] at hperform
      obtain ⟨k, s', hvisit, h⟩ := ih
        (s := ⟨some ⟨some (s.tries maxRetries - 1), s.skipped⟩, s.started ++ [corpusId]⟩) hsub
        (lt_of_succ_lt_succ hbound)
      refine ⟨k + 1, s', (visit_of_crashed hperform).trans hvisit, ?_⟩
      -- the start that crashed comes before those of the rest of the visit
      have hshift : ∀ j, crashes ((s.started ++ [corpusId]).length + j) = crashes (s.started.length + (j + 1)) := by
        intro j
        rw [length_append, length_singleton, add_assoc, add_comm 1]
      refine ⟨succ_le_succ h.starts_le, ?_, h.reset, fun hmem => absurd hmem hskip, fun hall => ?_,
        fun _ hmem => ?_, h.skipped_eq⟩
      · rw [h.starts, append_assoc, replicate_succ]
        rfl
      · refine h.exhausted fun j hj => ?_
        rw [hshift]
        exact hall (j + 1) (succ_lt_succ hj)
      · obtain ⟨hk, hall⟩ := h.only_exhausted hskip hmem
        refine ⟨congrArg (· + 1) hk, fun j hj => ?_⟩
        cases j with
        | zero => exact hcrash
        | succ j =>
          rw [← hshift]
          exact hall j (lt_of_succ_lt_succ hj)

/-! ### Every sequence of visits -/

/-- Between visits the counter is not running. -/
def Ready (s : Proc) : Prop := s.helper.bind Helper.triesRemaining = none

theorem Visit.ready {limit k : ℕ} {s' : Proc} (h : Visit crashes corpusId limit k s s') :
    Ready s' := by
  obtain ⟨skipped, hhelper⟩ := h.reset
  rw [Ready, hhelper]
  rfl

theorem toNat_tries (hs : Ready s) (hmax : maxRetries + 1 ≠ 0) :
    (s.tries maxRetries).toNat = maxRetries.toNat + 1 := by
  have htries : s.tries maxRetries = maxRetries + 1 := by
    rw [Proc.tries, hs]
    rfl
  have hlt := maxRetries.toNat_lt
  have hsum : (maxRetries + 1).toNat = (maxRetries.toNat + 1) % 2 ^ 64 := UInt64.toNat_add maxRetries 1
  have hne : (maxRetries + 1).toNat ≠ 0 := fun hzero => hmax (UInt64.toNat_inj.mp hzero)
  rw [htries]
  omega

theorem visits_end (crashes : ℕ → Bool) (hmax : maxRetries + 1 ≠ 0)
    (hbound : maxRetries.toNat < bound) (ids : List ℕ) (hs : Ready s) :
    ∃ s', visits maxRetries crashes bound ids s = .ok () s' ∧ Ready s' := by
  induction ids generalizing s with
  | nil => exact ⟨s, rfl, hs⟩
  | cons corpusId ids ih =>
    obtain ⟨k, t, hvisit, h⟩ := visit_ends (toNat_tries hs hmax) hbound
    obtain ⟨s', hrest, hready⟩ := ih h.ready
    exact ⟨s', (bind_ok hvisit).trans hrest, hready⟩

/-- For every sequence of visits and every pattern of crashes a further visit ends without an error,
    within the limit, exactly if the limit is not the largest number: its successor is the number of
    tries that the counter starts from. -/
theorem retry_limits_iff (maxRetries : UInt64) :
    (∀ (crashes : ℕ → Bool) (more : ℕ) (before : List ℕ) (corpusId : ℕ), ∃ s k s',
      visits maxRetries crashes (maxRetries.toNat + 1 + more) before fresh = .ok () s ∧
      visit maxRetries crashes corpusId (maxRetries.toNat + 1 + more) s = .ok () s' ∧
      Visit crashes corpusId maxRetries.toNat k s s') ↔ maxRetries + 1 ≠ 0 := by
  constructor
  · intro h hzero
    obtain ⟨s, k, s', hbefore, hvisit, -⟩ := h (fun _ => false) 0 [] 0
    cases hbefore
    obtain ⟨t, herror⟩ := visit_exhausted (s := fresh) (fun _ => false) 0 (maxRetries.toNat + 0) hzero
    rw [add_right_comm, herror] at hvisit
    cases hvisit
  · intro hmax crashes more before corpusId
    have hbound : maxRetries.toNat < maxRetries.toNat + 1 + more := by omega
    obtain ⟨s, hbefore, hs⟩ := visits_end crashes hmax hbound before (rfl : Ready fresh)
    obtain ⟨k, s', hvisit, h⟩ := visit_ends (toNat_tries hs hmax) hbound
    exact ⟨s, k, s', hbefore, hvisit, h⟩

/-- With the largest number of retries the first visit of a new run raises the error. -/
theorem largest_limit_raises_error :
    ∃ t, visit 0xFFFFFFFFFFFFFFFF (fun _ => false) 0 1 fresh =
      .error (.error (.illegalState .noRetriesLeft)) t :=
  visit_exhausted (fun _ => false) 0 0 (by decide)

end Bofuzz.RetryCount
