import Bofuzz.Tpe
import Bofuzz.Lib.Run

/-! What is left of the history after a restart (`feature_sched/tpe.rs`).

    Persisting copies the trials, restoring normalizes every vector again: it drops a trial whose
    vector is refused and keeps the others under the vector that comes out. So a history survives
    just if normalizing changes no vector in it, on whatever doubles it is computed. -/

namespace Bofuzz
open F64 Run List TpeState

variable {F : Type} [F64 F]

/-- The calls that change the trials and the last vector. -/
inductive TpeCall (F : Type) where
  | observeTrial (iteration : ℕ) (vector : List F) (reward : F) (activeStartMs activeEndMs : ℕ)
  | setLastVec (v : List F)
  | lockBest

variable (o : TpeState F)

def TpeState.call : TpeCall F → TpeState F
  | .observeTrial iteration vector reward activeStartMs activeEndMs =>
    o.observeTrial iteration vector reward activeStartMs activeEndMs
  | .setLastVec v => o.setLastVec v
  | .lockBest => o.lock

/-- `persist_to_meta` at time `now`, then `restore_once` on a fresh optimizer. -/
def TpeState.restart (now : ℕ) : TpeState F :=
  ({} : TpeState F).restoreOnce (some (o.persist none now))

/-- Some rounds, at the given times. -/
def TpeState.restarts (times : List ℕ) : TpeState F := run restart o times

/-- What a history is: vectors, rewards and end times in order, and the last vector. -/
def TpeState.record : List (List F × F × ℕ) × List F :=
  (o.trials.map fun t => (t.vector, t.reward, t.activeEndMs), o.lastVec)

/-- Normalizing gives this very vector back. -/
def Unmoved (v : List F) : Prop := normalizeSimplexEps v = .ok v

/-- The last vector is restored as it was just if it is unmoved: one that is refused comes back
    empty, and the empty vector is never refused. -/
theorem restored_lastVec_iff {v : List F} :
    (normalizeSimplexEps v).toOption.getD [] = v ↔ Unmoved v := by
  unfold Unmoved
  cases hv : normalizeSimplexEps v with
  | ok w => simp [Except.toOption]
  | error e =>
    have hne : [] ≠ v := by
      rintro rfl
      simp [normalizeSimplexEps] at hv
    simpa [Except.toOption] using hne

/-- What restoring makes of the record of a trial. -/
def restoredTrial (t : List F × F × ℕ) : Option (List F × F × ℕ) :=
  (normalizeSimplexEps t.1).toOption.map fun vector => (vector, t.2)

theorem restoredTrial_iff {t : List F × F × ℕ} : restoredTrial t = some t ↔ Unmoved t.1 := by
  unfold restoredTrial Unmoved
  cases normalizeSimplexEps t.1 <;> simp [Except.toOption, Prod.ext_iff]

/-- The trials are restored as they were just if all their vectors are unmoved: no trial can make up
    for one that is dropped, and the order is kept. -/
theorem restored_trials_iff {ts : List (List F × F × ℕ)} :
    ts.filterMap restoredTrial = ts ↔ ∀ t ∈ ts, Unmoved t.1 := by
  induction ts with
  | nil => simp
  | cons t ts ih =>
    rw [filterMap_cons, forall_mem_cons, ← restoredTrial_iff]
    cases ht : restoredTrial t with
    | some u => simp [ih]
    | none =>
      have hshort := length_filterMap_le restoredTrial ts
      have hne : ts.filterMap restoredTrial ≠ t :: ts := by
        intro heq
        rw [heq, length_cons] at hshort
        omega
      simp [hne]

/-- The vectors of the record are unmoved. -/
def UnmovedRecord (r : List (List F × F × ℕ) × List F) : Prop :=
  (∀ p ∈ r.1, Unmoved p.1) ∧ Unmoved r.2

theorem restart_record (now : ℕ) : (o.restart now).record =
    (o.record.1.filterMap restoredTrial, (normalizeSimplexEps o.lastVec).toOption.getD []) := by
  refine Prod.ext ?_ rfl
  show map _ (filterMap _ (zipIdx o.record.1)) = _
  nth_rewrite 2 [← zipIdx_map_fst 0 o.record.1]
  rw [map_filterMap, filterMap_map]
  simp [restoredTrial, Function.comp_def]

theorem restart_record_iff {o : TpeState F} {now : ℕ} :
    (o.restart now).record = o.record ↔ UnmovedRecord o.record := by
  rw [restart_record, UnmovedRecord, ← restored_trials_iff, ← restored_lastVec_iff, Prod.ext_iff]
  rfl

/-- The history of an optimizer survives every number of restarts just if normalizing changes no
    vector in it, the last one included. -/
theorem history_survives_iff (o : TpeState F) :
    (∀ times, (o.restarts times).record = o.record) ↔
      (∀ t ∈ o.trials, normalizeSimplexEps t.vector = .ok t.vector) ∧
        normalizeSimplexEps o.lastVec = .ok o.lastVec := by
  have hcond : ((∀ t ∈ o.trials, normalizeSimplexEps t.vector = .ok t.vector) ∧
      normalizeSimplexEps o.lastVec = .ok o.lastVec) ↔ UnmovedRecord o.record := by
    simp [UnmovedRecord, Unmoved, record]
  rw [hcond]
  constructor
  · intro hsame
    exact restart_record_iff.mp (hsame [0])
  · intro hunmoved times
    -- the record that a round starts from is the first one, so each round keeps it
    refine foldlRecOn times restart (motive := fun o' => o'.record = o.record) rfl ?_
    intro o' h now _
    rw [restart_record_iff.mpr (h.symm ▸ hunmoved), h]

/-- A vector with two different entries comes back changed from the first restart. -/
theorem skewed_history_drifts :
    ((run call {} [.observeTrial 0 [.fin 1, .fin 0] (.fin 5) 0 1]).restarts [2]).record
      ≠ (run call ({} : TpeState Exact) [.observeTrial 0 [.fin 1, .fin 0] (.fin 5) 0 1]).record := by
  decide +kernel

end Bofuzz
