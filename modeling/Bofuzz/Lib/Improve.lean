import Mathlib.Algebra.Order.BigOperators.Group.Finset

/-! Tables whose entries are replaced by better ones.

    `offer` enters a value under a key, or replaces the value that is there if the new one is
    better, and notes the replacement in a flag. `Improves` is what any number of offers can do:
    values only get better, and a flag that is not set says that no value was replaced. So passes
    that are repeated while the flag is set come to an end, if values cannot get better for ever. -/

namespace Improve
open Option

/-- Entries and a flag that is set when one is replaced. -/
structure Table (κ β : Type) where
  entries : κ → Option β
  changed : Bool

variable {κ β : Type} [DecidableEq κ] {better : β → β → Bool} {offered : κ → β → Prop}
  {t t' t'' : Table κ β} {k k' : κ} {v m : β}

/-- `entry(k).or_insert(v)`, and the entry is replaced if `v` is better. -/
def Table.offer (better : β → β → Bool) (t : Table κ β) (k : κ) (v : β) : Table κ β :=
  let e := (t.entries k).getD v
  { entries := Function.update t.entries k (some (if better v e then v else e))
    changed := t.changed || better v e }

theorem offer_self (t : Table κ β) (k : κ) (v : β) : (t.offer better k v).entries k =
    some (if better v ((t.entries k).getD v) then v else (t.entries k).getD v) :=
  Function.update_self _ _ _

theorem offer_of_ne (h : k' ≠ k) : (t.offer better k v).entries k' = t.entries k' :=
  Function.update_of_ne h _ _

theorem offer_changed :
    (t.offer better k v).changed = (t.changed || better v ((t.entries k).getD v)) := rfl

/-- Values get better or stay. If the flag is set in between, some value that was offered is better
    than the entry there was. -/
structure Improves (better : β → β → Bool) (offered : κ → β → Prop) (t t' : Table κ β) : Prop where
  le : ∀ k m, t.entries k = some m → ∃ m', (m' = m ∨ better m' m) ∧ t'.entries k = some m'
  kept : t'.changed = false → t.changed = false ∧ ∀ k m, t.entries k = some m → t'.entries k = some m
  less : t.changed = false → t'.changed = true → ∃ k v, offered k v ∧ ∀ m, t.entries k = some m →
    better v m ∧ ∃ m', (m' = v ∨ better m' v) ∧ t'.entries k = some m'

theorem better_trans (htrans : ∀ a b c, better a b → better b c → better a c) {a b c : β}
    (h : a = b ∨ better a b) (h' : b = c ∨ better b c) : a = c ∨ better a c := by
  rcases h with rfl | h
  · exact h'
  · rcases h' with rfl | h'
    · exact .inr h
    · exact .inr (htrans a b c h h')

namespace Improves

omit [DecidableEq κ] in
theorem refl (t : Table κ β) : Improves better offered t t where
  le _ m h := ⟨m, .inl rfl, h⟩
  kept h := ⟨h, fun _ _ h => h⟩
  less h h' := absurd (h.symm.trans h') Bool.false_ne_true

omit [DecidableEq κ] in
theorem trans (htrans : ∀ a b c, better a b → better b c → better a c)
    (h : Improves better offered t t') (h' : Improves better offered t' t'') :
    Improves better offered t t'' where
  le k m hm := by
    obtain ⟨m₁, hle₁, hm₁⟩ := h.le k m hm
    obtain ⟨m₂, hle₂, hm₂⟩ := h'.le k m₁ hm₁
    exact ⟨m₂, better_trans htrans hle₂ hle₁, hm₂⟩
  kept hc := by
    obtain ⟨hb, hkept'⟩ := h'.kept hc
    obtain ⟨ha, hkept⟩ := h.kept hb
    exact ⟨ha, fun k m hm => hkept' k m (hkept k m hm)⟩
  less ha hc := by
    cases hb : t'.changed with
    | false =>
      obtain ⟨k, v, hoffered, hless⟩ := h'.less hb hc
      exact ⟨k, v, hoffered, fun m hm => hless m ((h.kept hb).2 k m hm)⟩
    | true =>
      obtain ⟨k, v, hoffered, hless⟩ := h.less ha hb
      refine ⟨k, v, hoffered, fun m hm => ?_⟩
      obtain ⟨hbetter, m₁, hle₁, hm₁⟩ := hless m hm
      obtain ⟨m₂, hle₂, hm₂⟩ := h'.le k m₁ hm₁
      exact ⟨hbetter, m₂, better_trans htrans hle₂ hle₁, hm₂⟩

omit [DecidableEq κ] in
theorem isSome (h : Improves better offered t t') (hk : (t.entries k).isSome) :
    (t'.entries k).isSome := by
  obtain ⟨m, hm⟩ := isSome_iff_exists.mp hk
  obtain ⟨m', -, hm'⟩ := h.le k m hm
  exact isSome_of_eq_some hm'

theorem offer (hoffered : offered k v) : Improves better offered t (t.offer better k v) := by
  constructor
  · intro k' m hm
    by_cases hk : k' = k
    · subst hk
      rw [offer_self, hm, getD_some]
      split
      · next h => exact ⟨v, .inr h, rfl⟩
      · exact ⟨m, .inl rfl, rfl⟩
    · rw [offer_of_ne hk]
      exact ⟨m, .inl rfl, hm⟩
  · rw [offer_changed, Bool.or_eq_false_iff]
    rintro ⟨hflag, hnot⟩
    refine ⟨hflag, fun k' m hm => ?_⟩
    by_cases hk : k' = k
    · subst hk
      rw [hm, getD_some] at hnot
      rw [offer_self, hm, getD_some, hnot]
      rfl
    · rw [offer_of_ne hk, hm]
  · rw [offer_changed]
    intro hflag hless
    rw [hflag, Bool.false_or] at hless
    refine ⟨k, v, hoffered, fun m hm => ?_⟩
    rw [hm, getD_some] at hless
    rw [offer_self, hm, getD_some, if_pos hless]
    exact ⟨hless, v, .inl rfl, rfl⟩

end Improves

/-! ### Repeated passes -/

/-- The costs of the entries under the given keys. -/
def Table.cost {ι : Type} [Fintype ι] (key : ι → κ) (cost : β → ℕ) (t : Table κ β) : ℕ :=
  ∑ i, ((t.entries (key i)).map cost).getD 0

omit [DecidableEq κ] in
/-- If better values cost less, a replacement makes the table cheaper. -/
theorem Improves.cost_lt {ι : Type} [Fintype ι] {key : ι → κ} {cost : β → ℕ}
    (h : Improves better offered t t') (hknown : ∀ i, (t.entries (key i)).isSome)
    (hkey : ∀ k v, offered k v → ∃ i, key i = k) (hle : ∀ a b, better a b → cost a ≤ cost b)
    (hlt : ∀ k v m, offered k v → better v m → cost v < cost m)
    (hbefore : t.changed = false) (hafter : t'.changed = true) :
    t'.cost key cost < t.cost key cost := by
  have hcost : ∀ a b, a = b ∨ better a b → cost a ≤ cost b := by
    rintro a b (rfl | hb)
    · exact Nat.le_refl _
    · exact hle a b hb
  obtain ⟨k, v, hoffered, hless⟩ := h.less hbefore hafter
  obtain ⟨i, rfl⟩ := hkey k v hoffered
  refine Finset.sum_lt_sum (fun j _ => ?_) ⟨i, Finset.mem_univ i, ?_⟩
  · obtain ⟨m, hm⟩ := isSome_iff_exists.mp (hknown j)
    obtain ⟨m', hbetter, hm'⟩ := h.le _ m hm
    rw [hm, hm']
    exact hcost m' m hbetter
  · obtain ⟨m, hm⟩ := isSome_iff_exists.mp (hknown i)
    obtain ⟨hv, m', hbetter, hm'⟩ := hless m hm
    rw [hm, hm']
    exact Nat.lt_of_le_of_lt (hcost m' v hbetter) (hlt _ v m hoffered hv)

section
variable {ε σ : Type} {unfinished : ε} {changed : σ → Bool} {pass : σ → Except ε σ}

/-- `while changed { pass }`, with a bound on the rounds. -/
def whileChanged (unfinished : ε) (changed : σ → Bool) (pass : σ → Except ε σ) : ℕ → σ → Except ε σ
  | 0, s => if changed s then .error unfinished else .ok s
  | n + 1, s =>
    if changed s then
      match pass s with
      | .ok s' => whileChanged unfinished changed pass n s'
      | .error e => .error e
    else .ok s

theorem whileChanged_stop {s : σ} (h : changed s = false) (n : ℕ) :
    whileChanged unfinished changed pass n s = .ok s := by
  cases n <;> simp [whileChanged, h]

theorem whileChanged_ok {s s' : σ} (hpass : pass s = .ok s') (h : changed s = true) (n : ℕ) :
    whileChanged unfinished changed pass (n + 1) s = whileChanged unfinished changed pass n s' := by
  simp [whileChanged, h, hpass]

theorem whileChanged_error {s : σ} {e : ε} (hpass : pass s = .error e) (h : changed s = true)
    (n : ℕ) :
    whileChanged unfinished changed pass (n + 1) s = .error e := by
  simp [whileChanged, h, hpass]

/-- If a state that a pass leaves changed is smaller, the loop ends: enough rounds always give the
    same result, the error of a pass or a state that is not changed. -/
theorem whileChanged_ends (unfinished : ε) {I : σ → Prop} {size : σ → ℕ}
    (hpass : ∀ s s', I s → changed s = true → pass s = .ok s' →
      I s' ∧ (changed s' = true → size s' < size s)) :
    ∀ (k : ℕ) (s : σ), I s → size s ≤ k → ∃ res, (∀ n > k, whileChanged unfinished changed pass n s = res) ∧
      ((∃ s' e, I s' ∧ pass s' = .error e ∧ res = .error e) ∨
        ∃ s', I s' ∧ changed s' = false ∧ res = .ok s') := by
  intro k
  induction k using Nat.strong_induction_on with
  | _ k ih =>
    intro s hI hk
    cases hs : changed s with
    | false => exact ⟨.ok s, fun n _ => whileChanged_stop hs n, .inr ⟨s, hI, hs, rfl⟩⟩
    | true =>
      cases hp : pass s with
      | error e =>
        refine ⟨.error e, fun n hn => ?_, .inl ⟨s, e, hI, hp, rfl⟩⟩
        obtain ⟨m, rfl⟩ : ∃ m, n = m + 1 := ⟨n - 1, by omega⟩
        exact whileChanged_error hp hs m
      | ok s' =>
        obtain ⟨hI', hless⟩ := hpass s s' hI hs hp
        cases hs' : changed s' with
        | false =>
          refine ⟨.ok s', fun n hn => ?_, .inr ⟨s', hI', hs', rfl⟩⟩
          obtain ⟨m, rfl⟩ : ∃ m, n = m + 1 := ⟨n - 1, by omega⟩
          rw [whileChanged_ok hp hs, whileChanged_stop hs']
        | true =>
          have hlt := hless hs'
          obtain ⟨res, hres, hend⟩ := ih (k - 1) (by omega) s' hI' (by omega)
          refine ⟨res, fun n hn => ?_, hend⟩
          obtain ⟨m, rfl⟩ : ∃ m, n = m + 1 := ⟨n - 1, by omega⟩
          rw [whileChanged_ok hp hs]
          exact hres m (by omega)

end

end Improve
