import Bofuzz.Lib.Distance

/-! Breadth-first search.

    The vertices that have a level are in the order in which they got it: first those that were
    taken off the queue, `done`, then the queue itself. `Search` says what holds of them between two
    rounds; a round takes the front vertex off and puts its successors without a level on the queue,
    one level further. Levels are distances all along, and in the end every vertex that a source
    reaches has one. How levels are stored is left to the program: a round has to be described by
    the vertices that are `new`. -/

namespace BreadthFirst
open Distance List

variable {V ι : Type*} {R : V → V → Prop} {S : ι → V → Prop} {level level' : V → ℕ}
  {done rest new : List V} {u v w : V} {k : ℕ}

/-- Where a search stands. -/
structure Search (R : V → V → Prop) (S : ι → V → Prop) (level : V → ℕ) (done queue : List V) :
    Prop where
  exact : ∀ v ∈ done ++ queue, Dist R S (level v) v
  sorted : (done ++ queue).Pairwise fun u v => level u ≤ level v
  near : ∀ v ∈ queue, ∀ w ∈ queue, level w ≤ level v + 1
  closed : ∀ u ∈ done, ∀ v, R u v → v ∈ done ++ queue
  source : ∀ i s, S i s → s ∈ done ++ queue

theorem search_start {queue : List V} (hlevel : ∀ v ∈ queue, level v = 0)
    (hsource : ∀ v, v ∈ queue ↔ ∃ i, S i v) : Search R S level [] queue where
  exact v hv := by
    rw [hlevel v hv, dist_zero]
    exact (hsource v).mp hv
  sorted := pairwise_of_forall_mem_list fun u hu v hv => by
    rw [hlevel u hu]
    exact Nat.zero_le _
  near v _ w hw := by
    rw [hlevel w hw]
    exact Nat.zero_le _
  closed u hu := absurd hu not_mem_nil
  source i s hs := (hsource s).mpr ⟨i, hs⟩

section
variable (h : Search R S level done (v :: rest))
include h

/-- What has a level that is smaller than the front's is done. -/
theorem Search.mem_done_of_level_lt (hu : u ∈ done ++ v :: rest) (hlt : level u < level v) :
    u ∈ done := by
  rcases mem_append.mp hu with hu | hu
  · exact hu
  have hfront : ∀ x ∈ rest, level v ≤ level x :=
    (pairwise_cons.mp (pairwise_append.mp h.sorted).2.1).1
  rcases mem_cons.mp hu with rfl | hu
  · exact absurd hlt (lt_irrefl _)
  · exact absurd (hfront u hu) (not_le.mpr hlt)

/-- What is nearer than the front of the queue is done. -/
theorem Search.mem_done_of_lt (hu : Dist R S k u) (hk : k < level v) : u ∈ done := by
  induction k generalizing u with
  | zero =>
    obtain ⟨i, hi⟩ := dist_zero.mp hu
    have hmem := h.source i u hi
    have hlevel := dist_unique (h.exact u hmem) hu
    exact h.mem_done_of_level_lt hmem (hlevel ▸ hk)
  | succ k ih =>
    obtain ⟨-, x, hx, hstep⟩ := dist_succ.mp hu
    have hmem := h.closed x (ih hx (Nat.lt_of_succ_lt hk)) u hstep
    have hlevel := dist_unique (h.exact u hmem) hu
    exact h.mem_done_of_level_lt hmem (hlevel ▸ hk)

/-- The successors of the front that have no level are one step further away. -/
theorem Search.dist_new (hstep : R v w) (hnew : w ∉ done ++ v :: rest) :
    Dist R S (level v + 1) w := by
  refine dist_succ.mpr ⟨fun k hk hdist => hnew ?_, v, h.exact v (by simp), hstep⟩
  cases k with
  | zero =>
    obtain ⟨i, hi⟩ := dist_zero.mp hdist
    exact h.source i w hi
  | succ k =>
    obtain ⟨-, x, hx, hxw⟩ := dist_succ.mp hdist
    exact h.closed x (h.mem_done_of_lt hx hk) w hxw

/-- All levels are at most one above the front's. -/
theorem Search.level_le (hu : u ∈ done ++ v :: rest) : level u ≤ level v + 1 := by
  rcases mem_append.mp hu with hu | hu
  · have hle := (pairwise_append.mp h.sorted).2.2 u hu v mem_cons_self
    exact Nat.le_succ_of_le hle
  · exact h.near v mem_cons_self u hu

theorem Search.step (hnew : ∀ w, w ∈ new ↔ R v w ∧ w ∉ done ++ v :: rest)
    (hold : ∀ w ∈ done ++ v :: rest, level' w = level w)
    (hlevel : ∀ w ∈ new, level' w = level v + 1) :
    Search R S level' (done ++ [v]) (rest ++ new) := by
  have hlist : done ++ [v] ++ (rest ++ new) = (done ++ v :: rest) ++ new := by simp
  have hrest : ∀ x ∈ rest, x ∈ done ++ v :: rest := fun x hx => by simp [hx]
  have hfront : ∀ x ∈ rest, level v ≤ level x :=
    (pairwise_cons.mp (pairwise_append.mp h.sorted).2.1).1
  -- in the new queue, levels are the front's or one more
  have hqueue : ∀ x ∈ rest ++ new, level v ≤ level' x ∧ level' x ≤ level v + 1 := by
    intro x hx
    rcases mem_append.mp hx with hx | hx
    · rw [hold x (hrest x hx)]
      exact ⟨hfront x hx, h.level_le (hrest x hx)⟩
    · rw [hlevel x hx]
      exact ⟨Nat.le_succ _, le_rfl⟩
  constructor
  · rw [hlist]
    refine forall_mem_append.mpr ⟨fun x hx => ?_, fun x hx => ?_⟩
    · rw [hold x hx]
      exact h.exact x hx
    · rw [hlevel x hx]
      exact h.dist_new ((hnew x).mp hx).1 ((hnew x).mp hx).2
  · rw [hlist, pairwise_append]
    refine ⟨h.sorted.imp_of_mem fun ha hb hle => ?_, ?_, fun a ha b hb => ?_⟩
    · rwa [hold _ ha, hold _ hb]
    · refine pairwise_of_forall_mem_list fun a ha b hb => ?_
      rw [hlevel a ha, hlevel b hb]
    · rw [hold a ha, hlevel b hb]
      exact h.level_le ha
  · intro x hx y hy
    have hx := (hqueue x hx).1
    have hy := (hqueue y hy).2
    omega
  · rw [hlist]
    refine forall_mem_append.mpr ⟨fun x hx y hxy => mem_append_left _ (h.closed x hx y hxy),
      forall_mem_singleton.mpr fun y hvy => mem_append.mpr (or_iff_not_imp_left.mpr fun hy => ?_)⟩
    exact (hnew y).mpr ⟨hvy, hy⟩
  · intro i s hs
    rw [hlist]
    exact mem_append_left _ (h.source i s hs)

end

theorem Search.dist_iff (h : Search R S level done []) : Dist R S k v ↔ v ∈ done ∧ level v = k := by
  have hmem : ∀ {x}, x ∈ done ++ [] ↔ x ∈ done := fun {x} => by rw [append_nil]
  constructor
  · intro hdist
    suffices hv : v ∈ done from ⟨hv, dist_unique (h.exact v (hmem.mpr hv)) hdist⟩
    induction k generalizing v with
    | zero =>
      obtain ⟨i, hi⟩ := dist_zero.mp hdist
      exact hmem.mp (h.source i v hi)
    | succ k ih =>
      obtain ⟨-, u, hu, hstep⟩ := dist_succ.mp hdist
      exact hmem.mp (h.closed u (ih hu) v hstep)
  · rintro ⟨hv, rfl⟩
    exact h.exact v (hmem.mpr hv)

end BreadthFirst
