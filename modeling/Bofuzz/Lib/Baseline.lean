import Mathlib.Data.List.Basic

/-! Lists whose entries leave a base value and stay away from it.

    `departed a l` is the number of entries of `l` that differ from `a`, and `Advances a l l'` says
    that what has left `a` in `l` is away from it in `l'` as well. A counter that is raised with
    every entry that leaves stays equal to `departed` as long as no entry returns. -/

namespace Baseline
open List

variable {α : Type} {a : α}

/-- What has left `a` in `l` is away from it in `l'`. -/
def Advances (a : α) (l l' : List α) : Prop :=
  ∀ (i : ℕ) (x : α), l[i]? = some x → x ≠ a → ∃ y, l'[i]? = some y ∧ y ≠ a

theorem Advances.refl (l : List α) : Advances a l l := fun _ x hx hxa => ⟨x, hx, hxa⟩

theorem Advances.trans {l l' l'' : List α} (h : Advances a l l') (h' : Advances a l' l'') :
    Advances a l l'' := by
  intro i x hx hxa
  obtain ⟨y, hy, hya⟩ := h i x hx hxa
  exact h' i y hy hya

theorem Advances.append (l m : List α) : Advances a l (l ++ m) := by
  intro i x hx hxa
  obtain ⟨hi, _⟩ := List.getElem?_eq_some_iff.mp hx
  exact ⟨x, by rw [List.getElem?_append_left hi, hx], hxa⟩

variable {l : List α}

theorem Advances.set {i : ℕ} {x v : α} (hx : l[i]? = some x) (hv : x ≠ a → v ≠ a) :
    Advances a l (l.set i v) := by
  intro j y hy hya
  obtain ⟨hj, _⟩ := List.getElem?_eq_some_iff.mp hy
  by_cases hij : i = j
  · subst hij
    cases hx.symm.trans hy
    exact ⟨v, getElem?_set_self hj, hv hya⟩
  · exact ⟨y, by rw [getElem?_set_ne hij, hy], hya⟩

theorem Advances.cons {x y : α} {l l' : List α} (hxy : x ≠ a → y ≠ a) (h : Advances a l l') :
    Advances a (x :: l) (y :: l') := by
  intro i z hz hza
  cases i with
  | zero =>
    cases Option.some.inj hz
    exact ⟨y, rfl, hxy hza⟩
  | succ i => exact h i z hz hza

variable [DecidableEq α]

/-- The number of entries that have left `a`. -/
def departed (a : α) (l : List α) : ℕ := l.countP (· ≠ a)

theorem departed_cons (x : α) (l : List α) :
    departed a (x :: l) = departed a l + if x ≠ a then 1 else 0 := by
  unfold departed
  by_cases hx : x = a <;> simp [hx]

theorem departed_of_all (h : ∀ x ∈ l, x = a) : departed a l = 0 := by
  refine countP_eq_zero.mpr fun x hx => ?_
  simp [h x hx]

theorem departed_append_base (l : List α) (n : ℕ) :
    departed a (l ++ List.replicate n a) = departed a l := by
  have hbase : departed a (List.replicate n a) = 0 :=
    departed_of_all fun x hx => eq_of_mem_replicate hx
  unfold departed at *
  rw [countP_append, hbase, Nat.add_zero]

/-- A write that does not bring an entry back counts at most one more. -/
theorem departed_set {i : ℕ} {x v : α} (hx : l[i]? = some x) (hv : x ≠ a → v ≠ a) :
    departed a (l.set i v) = departed a l + if x = a ∧ v ≠ a then 1 else 0 := by
  obtain ⟨hi, rfl⟩ := List.getElem?_eq_some_iff.mp hx
  unfold departed
  rw [countP_set hi]
  by_cases hxa : l[i] = a
  · by_cases hva : v = a <;> simp [hxa, hva]
  have hpos : 0 < l.countP (· ≠ a) :=
    countP_pos_iff.mpr ⟨l[i], getElem_mem hi, by simpa using hxa⟩
  have hva := hv hxa
  rw [if_pos (by simpa using hxa), if_pos (by simpa using hva), if_neg fun h => hxa h.1]
  omega

end Baseline
