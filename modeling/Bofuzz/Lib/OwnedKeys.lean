import Bofuzz.Lib.SortedMap
import Mathlib.Data.Finset.SDiff

/-! The keys that each value of a finite map owns.

    Where a map assigns an owner to every key, `owned m v` is the set of keys that belong to `v`.
    The lemmas say what handing keys over to one owner, or taking all keys away from one, does to
    the sets of all of them. -/

namespace SortedMap
open List

variable {κ α : Type} [LinearOrder κ] [DecidableEq α] (m : SortedMap κ α)

omit [DecidableEq α] in
theorem get_eq_some_iff {k : κ} {v : α} : m.get k = some v ↔ (k, v) ∈ m.entries := by
  have hinc := m.increasing
  unfold get
  revert hinc
  induction m.entries with
  | nil => simp
  | cons e es ih =>
    intro hinc
    obtain ⟨hlt, hes⟩ := pairwise_cons.mp hinc
    rw [lookup_cons_eq, mem_cons]
    by_cases hk : k = e.1
    · have hnot : (k, v) ∉ es := fun hmem => (hlt k (mem_map_of_mem hmem)).ne' hk
      rw [if_pos hk, Option.some_inj, hk, Prod.ext_iff]
      subst hk
      simp [hnot, eq_comm]
    · have hne : (k, v) ≠ e := fun he => hk (congrArg Prod.fst he)
      rw [if_neg hk, or_iff_right hne]
      exact ih hes

/-- The keys whose value is `v`. -/
def owned (v : α) : Finset κ := (m.keys.filter fun k => m.get k = some v).toFinset

@[simp] theorem mem_owned {k : κ} {v : α} : k ∈ m.owned v ↔ m.get k = some v := by
  unfold owned
  rw [mem_toFinset, mem_filter, decide_eq_true_iff, ← get_isSome_iff, and_iff_right_iff_imp]
  intro h
  rw [h]
  rfl

omit [DecidableEq α] in
/-- Give a list of keys to one owner. -/
def assign (m : SortedMap κ α) (ks : List κ) (v : α) : SortedMap κ α :=
  ks.foldl (fun m k => m.insert k v) m

omit [DecidableEq α] in
theorem get_assign (v : α) (j : κ) : ∀ (ks : List κ) (m : SortedMap κ α),
    (m.assign ks v).get j = if j ∈ ks then some v else m.get j
  | [], m => by simp [assign]
  | k :: ks, m => by
    have ih := get_assign v j ks (m.insert k v)
    rw [get_insert] at ih
    refine ih.trans ?_
    by_cases hks : j ∈ ks
    · rw [if_pos hks, if_pos (.tail k hks)]
    · by_cases hjk : j = k <;> simp [hks, hjk]

theorem owned_assign_self (ks : List κ) (v : α) :
    (m.assign ks v).owned v = ks.toFinset ∪ m.owned v := by
  ext j
  rw [mem_owned, get_assign, Finset.mem_union, mem_toFinset, mem_owned]
  by_cases hj : j ∈ ks <;> simp [hj]

theorem owned_assign_of_ne (ks : List κ) {v u : α} (h : u ≠ v) :
    (m.assign ks v).owned u = m.owned u \ ks.toFinset := by
  ext j
  rw [mem_owned, get_assign, Finset.mem_sdiff, mem_toFinset, mem_owned]
  by_cases hj : j ∈ ks
  · simp [hj, h.symm]
  · simp [hj]

/-- Take away all the keys of one owner. -/
def discard (v : α) : SortedMap κ α where
  entries := m.entries.filter fun e => e.2 ≠ v
  increasing := m.increasing.sublist (List.filter_sublist.map _)

theorem get_discard (v : α) (k : κ) :
    (m.discard v).get k = if m.get k = some v then none else m.get k := by
  refine Option.ext fun u => ?_
  rw [get_eq_some_iff, discard, mem_filter, ← get_eq_some_iff, decide_eq_true_iff]
  split_ifs with hk
  · rw [hk]
    simp [eq_comm]
  · refine and_iff_left_of_imp fun hu huv => hk ?_
    rw [hu]
    exact congrArg some huv

theorem owned_discard_of_ne {v u : α} (h : u ≠ v) : (m.discard v).owned u = m.owned u := by
  ext k
  rw [mem_owned, mem_owned, get_discard]
  by_cases hk : m.get k = some v
  · simp [hk, h.symm]
  · simp [hk]

end SortedMap
