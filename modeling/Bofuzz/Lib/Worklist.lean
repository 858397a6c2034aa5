import Bofuzz.Lib.Loop
import Mathlib.Data.Finset.Card

/-! Exploring a graph with a work list.

    A vertex is marked when it is put on the work list, so that none is put there twice. The search
    takes a vertex off, marks its successors that have no mark yet, and ends when the list is empty.
    It takes off exactly the vertices that the first ones reach along unmarked vertices, whether the
    work list is a stack or a queue and in whatever order the successors come. -/

namespace Worklist
open Loop Relation List

variable {κ : Type} [DecidableEq κ]

/-- Where the work list grows; vertices are taken off its front. -/
inductive Side where | front | back

def Side.push : Side → List κ → κ → List κ
  | .front, work, x => x :: work
  | .back, work, x => work ++ [x]

variable {work : List κ}

omit [DecidableEq κ] in
@[simp] theorem Side.mem_push {side : Side} {x y : κ} :
    y ∈ side.push work x ↔ y ∈ work ∨ y = x := by
  cases side with
  | front => rw [Side.push, mem_cons, or_comm]
  | back => rw [Side.push, mem_append, mem_singleton]

omit [DecidableEq κ] in
@[simp] theorem Side.length_push {side : Side} {x : κ} :
    (side.push work x).length = work.length + 1 := by
  cases side with
  | front => rw [Side.push, length_cons]
  | back => rw [Side.push, length_append, length_singleton]

/-- The marks, the work list, and what was taken off it. -/
structure State (κ : Type) where
  marked : Finset κ
  work : List κ
  taken : Finset κ

variable (side : Side) (succs : κ → List κ)

/-- Mark a vertex and put it on the work list, unless it has a mark. -/
def mark (s : State κ) (y : κ) : State κ :=
  if y ∈ s.marked then s
  else { s with marked := insert y s.marked, work := side.push s.work y }

/-- Take a vertex off the work list and mark its successors. -/
def expand (s : State κ) : State κ :=
  match s.work with
  | [] => s
  | x :: work => (succs x).foldl (mark side) { s with work, taken := insert x s.taken }

def explore (s : State κ) : Prog (State κ) :=
  whileLoop (fun s => !s.work.isEmpty) (expand side succs) s

variable {side succs} {s t : State κ}

/-! ### Marking -/

/-- What `mark` does for a list of vertices: the new ones are put on the work list, nothing is taken
    off, and the unmarked vertices of any set lose as many as the work list gains. -/
structure Marks (s t : State κ) (ys : List κ) : Prop where
  marked : ∀ y, y ∈ t.marked ↔ y ∈ s.marked ∨ y ∈ ys
  work : ∀ y, y ∈ t.work ↔ y ∈ s.work ∨ y ∈ ys ∧ y ∉ s.marked
  taken : t.taken = s.taken
  size : ∀ U : Finset κ, (∀ y ∈ ys, y ∈ U) →
    (U \ t.marked).card + t.work.length = (U \ s.marked).card + s.work.length

theorem card_sdiff_insert {U M : Finset κ} {y : κ} (hy : y ∈ U) (hnew : y ∉ M) :
    (U \ insert y M).card + 1 = (U \ M).card := by
  rw [Finset.sdiff_insert, Finset.card_erase_add_one]
  exact Finset.mem_sdiff.mpr ⟨hy, hnew⟩

theorem marks_mark (s : State κ) (y : κ) : Marks s (mark side s y) [y] := by
  by_cases hy : y ∈ s.marked
  · have heq : mark side s y = s := if_pos hy
    rw [heq]
    constructor
    · intro z
      refine ⟨.inl, ?_⟩
      rintro (h | h)
      · exact h
      · exact (mem_singleton.mp h) ▸ hy
    · intro z
      refine ⟨.inl, ?_⟩
      rintro (h | ⟨h, hnot⟩)
      · exact h
      · exact absurd ((mem_singleton.mp h) ▸ hy) hnot
    · rfl
    · exact fun _ _ => rfl
  · have heq : mark side s y =
        { s with marked := insert y s.marked, work := side.push s.work y } := if_neg hy
    rw [heq]
    constructor
    · intro z
      rw [Finset.mem_insert, mem_singleton, or_comm]
    · intro z
      rw [Side.mem_push, mem_singleton]
      refine or_congr Iff.rfl ⟨?_, And.left⟩
      rintro rfl
      exact ⟨rfl, hy⟩
    · rfl
    · intro U hU
      have hcard := card_sdiff_insert (hU y (mem_singleton_self y)) hy
      show (U \ insert y s.marked).card + (side.push s.work y).length = _
      rw [Side.length_push]
      omega

theorem marks_foldl : ∀ (ys : List κ) (s : State κ), Marks s (ys.foldl (mark side) s) ys
  | [], s => ⟨by simp, by simp, rfl, fun _ _ => rfl⟩
  | y :: ys, s => by
    have hfirst : Marks s (mark side s y) [y] := marks_mark s y
    have hrest : Marks (mark side s y) (ys.foldl (mark side) (mark side s y)) ys := marks_foldl ys _
    constructor
    · intro z
      rw [foldl_cons, hrest.marked, hfirst.marked, mem_singleton, mem_cons, or_assoc]
    · intro z
      rw [foldl_cons, hrest.work, hfirst.work, hfirst.marked, mem_singleton, mem_cons]
      by_cases hz : z = y
      · simp [hz]
      · simp [hz]
    · exact hrest.taken.trans hfirst.taken
    · intro U hU
      have h1 := hfirst.size U fun z hz => hU z (mem_cons.mpr (.inl (mem_singleton.mp hz)))
      have h2 := hrest.size U fun z hz => hU z (mem_cons_of_mem y hz)
      rw [foldl_cons, h2, h1]

/-! ### The search -/

/-- A step to a vertex without a mark. -/
def Step (succs : κ → List κ) (marked : Finset κ) (x y : κ) : Prop := y ∈ succs x ∧ y ∉ marked

/-- Where a search that began with `s₀` stands. -/
structure Exploring (succs : κ → List κ) (s₀ s : State κ) : Prop where
  first : ∀ w ∈ s₀.work, w ∈ s.taken ∨ w ∈ s.work
  sound : ∀ y, y ∈ s.taken ∨ y ∈ s.work → ∃ w ∈ s₀.work, ReflTransGen (Step succs s₀.marked) w y
  closed : ∀ x ∈ s.taken, ∀ y ∈ succs x, y ∈ s.marked
  marked : ∀ y, y ∈ s.marked ↔ y ∈ s₀.marked ∨ y ∈ s.taken ∨ y ∈ s.work

omit [DecidableEq κ] in
theorem Exploring.start {s₀ : State κ} (htaken : s₀.taken = ∅)
    (hwork : ∀ w ∈ s₀.work, w ∈ s₀.marked) :
    Exploring succs s₀ s₀ where
  first w hw := .inr hw
  sound y hy := by
    rcases hy with hy | hy
    · rw [htaken] at hy
      exact absurd hy (Finset.notMem_empty y)
    · exact ⟨y, hy, .refl⟩
  closed x hx := by
    rw [htaken] at hx
    exact absurd hx (Finset.notMem_empty x)
  marked y := by
    rw [htaken]
    refine ⟨.inl, ?_⟩
    rintro (h | h | h)
    · exact h
    · exact absurd h (Finset.notMem_empty y)
    · exact hwork y h

variable (side succs) in
theorem expand_marks {x : κ} (h : s.work = x :: work) :
    Marks { s with work, taken := insert x s.taken } (expand side succs s) (succs x) := by
  rw [expand, h]
  exact marks_foldl _ _

variable {s₀ : State κ}

theorem Exploring.expand (h : Exploring succs s₀ s) (hne : s.work ≠ []) :
    Exploring succs s₀ (expand side succs s) := by
  obtain ⟨x, work, hwork⟩ := exists_cons_of_ne_nil hne
  have hmem : ∀ y, y ∈ s.work ↔ y = x ∨ y ∈ work := fun y => by rw [hwork, mem_cons]
  have hx : x ∈ s.work := (hmem x).mpr (.inl rfl)
  have hmarks := expand_marks side succs hwork
  have htaken : ∀ y, y ∈ (Worklist.expand side succs s).taken ↔ y = x ∨ y ∈ s.taken := fun y => by
    rw [hmarks.taken, Finset.mem_insert]
  constructor
  · intro w hw
    rw [htaken, hmarks.work]
    rcases h.first w hw with hw | hw
    · exact .inl (.inr hw)
    · rcases (hmem w).mp hw with rfl | hw
      · exact .inl (.inl rfl)
      · exact .inr (.inl hw)
  · intro y hy
    rw [htaken, hmarks.work] at hy
    rcases hy with (rfl | hy) | hy | ⟨hy, hnot⟩
    · exact h.sound y (.inr hx)
    · exact h.sound y (.inl hy)
    · exact h.sound y (.inr ((hmem y).mpr (.inr hy)))
    · obtain ⟨w, hw, hreach⟩ := h.sound x (.inr hx)
      exact ⟨w, hw, hreach.tail ⟨hy, fun hold => hnot ((h.marked y).mpr (.inl hold))⟩⟩
  · intro z hz y hy
    rw [hmarks.marked]
    rcases (htaken z).mp hz with rfl | hz
    · exact .inr hy
    · exact .inl (h.closed z hz y hy)
  · intro y
    rw [hmarks.marked, htaken, hmarks.work]
    have hold := h.marked y
    rw [hmem] at hold
    by_cases hy : y ∈ s.marked
    · have := hold.mp hy
      simp only [hy, not_true_eq_false, and_false, or_false, true_or, true_iff]
      tauto
    · have := mt hold.mpr hy
      simp only [hy, not_false_eq_true, and_true, false_or]
      tauto

/-- What the search has found in the end. -/
structure Explored (succs : κ → List κ) (s₀ s : State κ) : Prop where
  taken : ∀ y, y ∈ s.taken ↔ ∃ w ∈ s₀.work, ReflTransGen (Step succs s₀.marked) w y
  marked : ∀ y, y ∈ s.marked ↔ y ∈ s₀.marked ∨ y ∈ s.taken

omit [DecidableEq κ] in
theorem Exploring.done (h : Exploring succs s₀ s) (hwork : s.work = []) : Explored succs s₀ s := by
  have hempty : ∀ y, y ∉ s.work := fun y => by simp [hwork]
  have hmarked : ∀ y, y ∈ s.marked ↔ y ∈ s₀.marked ∨ y ∈ s.taken := fun y => by
    rw [h.marked, or_iff_left (hempty y)]
  refine ⟨fun y => ⟨fun hy => h.sound y (.inl hy), ?_⟩, hmarked⟩
  rintro ⟨w, hw, hreach⟩
  induction hreach with
  | refl => exact (h.first w hw).resolve_right (hempty w)
  | tail _ hstep ih => exact ((hmarked _).mp (h.closed _ ih _ hstep.1)).resolve_left hstep.2

/-- The search of a graph whose edges stay in a finite set comes to an end. -/
theorem explore_ends (U : Finset κ) (hsuccs : ∀ x ∈ U, ∀ y ∈ succs x, y ∈ U)
    (hU : ∀ w ∈ s₀.work, w ∈ U) (htaken : s₀.taken = ∅) (hwork : ∀ w ∈ s₀.work, w ∈ s₀.marked) :
    Ends (explore side succs s₀) (Explored succs s₀) := by
  refine (Ends.whileLoop (I := fun s => Exploring succs s₀ s ∧ ∀ w ∈ s.work, w ∈ U)
    (fun s => (U \ s.marked).card + s.work.length) ⟨.start htaken hwork, hU⟩ ?_).mono ?_
  · rintro s ⟨hI, hin⟩ hcond
    have hne : s.work ≠ [] := by simpa using hcond
    obtain ⟨x, work, hwork⟩ := exists_cons_of_ne_nil hne
    have hx : ∀ y ∈ succs x, y ∈ U := hsuccs x (hin x (by simp [hwork]))
    have hmarks := expand_marks side succs hwork
    refine ⟨⟨hI.expand hne, ?_⟩, ?_⟩
    · intro w hw
      rw [hmarks.work] at hw
      rcases hw with hw | ⟨hw, -⟩
      · exact hin w (by simp [hwork, hw])
      · exact hx w hw
    · rw [hmarks.size U hx, hwork]
      exact Nat.add_lt_add_left (Nat.lt_succ_self _) _
  · rintro t ⟨⟨hI, -⟩, hcond⟩
    exact hI.done (by simpa using hcond)

/-- If every marked vertex is on the work list, the search finds all that they reach. -/
theorem Explored.mem_marked_iff (h : Explored succs s₀ s) (hwork : ∀ w, w ∈ s₀.marked ↔ w ∈ s₀.work)
    {y : κ} : y ∈ s.marked ↔ ∃ w ∈ s₀.work, ReflTransGen (fun a b => b ∈ succs a) w y := by
  have htaken : ∀ y, y ∈ s.marked ↔ y ∈ s.taken := by
    intro y
    rw [h.marked, or_iff_right_iff_imp, hwork]
    exact fun hy => (h.taken y).mpr ⟨y, hy, .refl⟩
  rw [htaken]
  constructor
  · intro hy
    obtain ⟨w, hw, hreach⟩ := (h.taken y).mp hy
    exact ⟨w, hw, hreach.lift id fun _ _ => And.left⟩
  · rintro ⟨w, hw, hreach⟩
    induction hreach with
    | refl => exact (h.taken w).mpr ⟨w, hw, .refl⟩
    | @tail b c _ hstep ih =>
      by_cases hc : c ∈ s₀.marked
      · exact (h.taken c).mpr ⟨c, (hwork c).mp hc, .refl⟩
      · obtain ⟨w', hw', hreach'⟩ := (h.taken b).mp ih
        exact (h.taken c).mpr ⟨w', hw', hreach'.tail ⟨hstep, hc⟩⟩

end Worklist
