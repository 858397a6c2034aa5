import Bofuzz.Lib.Run
import Mathlib.Data.List.Sort

/-! Minimising the corpus (`libafl/src/corpus/minimizer.rs`).

    Every entry is a variable; for every value that some entry leaves at an index of the coverage
    map one of these entries must be kept, which is what the solver is asked. The entries that its
    model does not need are then removed, unless an entry is scheduled at the time. -/

namespace Bofuzz.CorpusMinimizer
open List

variable {I T : Type} [DecidableEq T]

/-- The enabled entries with their inputs, the scheduled one, and the entries that the scheduler was
    told to forget. -/
structure World (I : Type) where
  corpus : List (ℕ × I)
  current : Option ℕ
  told : List ℕ := []

/-- The indices that a run of the target has changed, with their values. -/
def coverage (initial : T) (map : List T) : List (ℕ × T) :=
  (map.zipIdx.filter fun e => e.1 ≠ initial).map Prod.swap

section
variable (observe : I → List T) (initial : T) (corpus : List (ℕ × I))

/-- The entries that leave a value at an index, `cov_map`. -/
def covMap : ℕ × T → List ℕ :=
  corpus.foldl (fun cov entry pair =>
    if pair ∈ coverage initial (observe entry.2) then entry.1 :: cov pair else cov pair) fun _ => []

/-- The model fulfils all that was asserted. -/
def Satisfies (model : ℕ → Bool) : Prop :=
  ∀ pair, covMap observe initial corpus pair ≠ [] →
    ∃ id ∈ covMap observe initial corpus pair, model id = true

/-- Some entry leaves the value at the index. -/
def Covers (pair : ℕ × T) : Prop :=
  ∃ entry ∈ corpus, pair ∈ coverage initial (observe entry.2)

end

def World.remove (w : World I) (id : ℕ) : World I :=
  { w with corpus := w.corpus.filter fun entry => entry.1 ≠ id, told := w.told ++ [id] }

/-- The entries that the model does not need, the last one first. -/
def unneeded (model : ℕ → Bool) (corpus : List (ℕ × I)) : List ℕ :=
  ((corpus.map (·.1)).filter fun id => !model id).insertionSort fun a b => b ≤ a

/-- `MapCorpusMinimizer::minimize` where no call fails, with the model of the solver, which the
    weights of the entries select. -/
def minimize (model : ℕ → Bool) (w : World I) : World I :=
  { (unneeded model w.corpus).foldl (fun v id => if w.current.isSome then v else v.remove id) w with
    current := none }

/-! ### What is removed -/

variable {observe : I → List T} {initial : T} {corpus : List (ℕ × I)} {model : ℕ → Bool} {w : World I}

theorem mem_covMap {pair : ℕ × T} {id : ℕ} : id ∈ covMap observe initial corpus pair ↔
    ∃ entry ∈ corpus, pair ∈ coverage initial (observe entry.2) ∧ id = entry.1 := by
  refine (Run.foldl_iff (P := fun cov : ℕ × T → List ℕ => id ∈ cov pair)
    (Q := fun entry => pair ∈ coverage initial (observe entry.2) ∧ id = entry.1) ?_ corpus _).trans
    (by simp)
  intro cov entry
  split_ifs with h
  · rw [mem_cons, or_comm, iff_true_intro h, true_and]
  · rw [iff_false_intro h, false_and, or_false]

theorem mem_unneeded {id : ℕ} :
    id ∈ unneeded model corpus ↔ id ∈ corpus.map (·.1) ∧ model id = false := by
  rw [unneeded, mem_insertionSort, mem_filter, Bool.not_eq_true']

theorem foldl_remove (ids : List ℕ) : (ids.foldl World.remove w).corpus =
      w.corpus.filter (fun entry => entry.1 ∉ ids) ∧ (ids.foldl World.remove w).told = w.told ++ ids := by
  induction ids generalizing w with
  | nil => simp
  | cons id ids ih =>
    rw [foldl_cons, ih.1, ih.2, World.remove, filter_filter, append_assoc]
    simp [Bool.and_comm]

theorem minimize_of_current {id : ℕ} (h : w.current = some id) :
    minimize model w = { w with current := none } := by
  simp [minimize, h]

theorem minimize_of_none (h : w.current = none) : (minimize model w).corpus =
      w.corpus.filter (fun entry => entry.1 ∉ unneeded model w.corpus) ∧
    (minimize model w).told = w.told ++ unneeded model w.corpus := by
  simp only [minimize, h, Option.isSome_none, Bool.false_eq_true, if_false]
  exact foldl_remove _

/-- Coverage is kept, and the unneeded entries other than the scheduled one are removed just if no
    entry is scheduled or there are none. -/
theorem minimize_removes_iff (observe : I → List T) (initial : T) (w : World I) (model : ℕ → Bool)
    (hmodel : Satisfies observe initial w.corpus model) :
    (∀ pair, Covers observe initial w.corpus pair → Covers observe initial (minimize model w).corpus pair) ∧
    ((∀ id ∈ unneeded model w.corpus, w.current ≠ some id →
        id ∉ (minimize model w).corpus.map (·.1) ∧ id ∈ (minimize model w).told) ↔
      w.current = none ∨ ∀ id ∈ unneeded model w.corpus, w.current = some id) := by
  cases hcurrent : w.current with
  | some cur =>
    rw [minimize_of_current hcurrent]
    refine ⟨fun pair h => h, fun h => .inr fun id hid => ?_, fun h id hid hne => ?_⟩
    · by_contra hne
      exact (h id hid hne).1 (mem_unneeded.mp hid).1
    · exact absurd ((h.resolve_left (Option.some_ne_none _)) id hid) hne
  | none =>
    obtain ⟨hcorpus, htold⟩ := minimize_of_none hcurrent
    rw [hcorpus, htold]
    refine ⟨?_, iff_of_true (fun id hid _ => ⟨?_, mem_append_right _ hid⟩) (.inl rfl)⟩
    · rintro pair ⟨entry, hentry, hpair⟩
      obtain ⟨id, hid, hkept⟩ := hmodel pair (ne_nil_of_mem (mem_covMap.mpr ⟨entry, hentry, hpair, rfl⟩))
      obtain ⟨kept, hmem, hcovers, rfl⟩ := mem_covMap.mp hid
      refine ⟨kept, mem_filter.mpr ⟨hmem, decide_eq_true fun hun => ?_⟩, hcovers⟩
      rw [(mem_unneeded.mp hun).2] at hkept
      cases hkept
    · rw [mem_map]
      rintro ⟨entry, hentry, rfl⟩
      exact of_decide_eq_true (mem_filter.mp hentry).2 hid

namespace Demo

/-- Two entries with the same coverage, of which the model keeps the first. -/
def twins (current : Option ℕ) : World Unit := { corpus := [(0, ()), (1, ())], current }

theorem twins_satisfied : Satisfies (fun _ => [1]) 0 (twins none).corpus (· = 0) := by
  intro pair hne
  obtain ⟨id, hid⟩ := exists_mem_of_ne_nil _ hne
  obtain ⟨entry, -, hpair, -⟩ := mem_covMap.mp hid
  exact ⟨0, mem_covMap.mpr ⟨(0, ()), mem_cons_self, hpair, rfl⟩, rfl⟩

end Demo

/-- The second entry is removed if none is scheduled. -/
theorem minimize_removes_demo : 1 ∉ (minimize (· = 0) (Demo.twins none)).corpus.map (·.1) := by
  have h := (minimize_removes_iff _ _ (Demo.twins none) _ Demo.twins_satisfied).2.mpr (.inl rfl)
  exact (h 1 (by decide) (by decide)).1

/-- It stays if the first one is. -/
theorem scheduled_entry_keeps_others :
    Satisfies (fun _ => [1]) 0 (Demo.twins (some 0)).corpus (· = 0) ∧
    1 ∈ unneeded (· = 0) (Demo.twins (some 0)).corpus ∧
    (minimize (· = 0) (Demo.twins (some 0))).corpus.map (·.1) = [0, 1] :=
  ⟨Demo.twins_satisfied, by decide, by decide⟩

end Bofuzz.CorpusMinimizer
