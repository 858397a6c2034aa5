import Mathlib.Algebra.Ring.Nat

/-! Random numbers (`libafl_bolts/src/rands/mod.rs`).

    A generator is a state with a function that yields the next 64 bits. What is proved about code
    that draws numbers is proved for every generator, so for all draws: `Yields m P` says that `m`
    returns only values in `P`. -/

namespace Bofuzz
open List Nat

/-- `trait Rand`. -/
class Rand (R : Type) where
  next : R → UInt64 × R

namespace Rand

/-- The generator that yields given draws, and then zeros. -/
instance replay : Rand (List UInt64) where
  next
    | [] => (0, [])
    | x :: rest => (x, rest)

/-- `fast_bound` and `fast_bound_usize`: the upper half of a product of two 64-bit numbers. -/
def fastBound (rand : UInt64) (n : ℕ) : ℕ := rand.toNat * n / 2 ^ 64

theorem fastBound_lt (rand : UInt64) {n : ℕ} (hn : 0 < n) : fastBound rand n < n := by
  have hrand : rand.toNat < 2 ^ 64 := rand.toNat_lt
  rw [fastBound, div_lt_iff_lt_mul (by decide), mul_comm]
  exact Nat.mul_lt_mul_of_pos_left hrand hn

theorem exists_fastBound_eq {n i : ℕ} (hn : n ≤ 2 ^ 64) (hi : i < n) : ∃ x, fastBound x n = i := by
  -- the least word whose multiple reaches `i`
  obtain ⟨k, hk⟩ : ∃ k, k = (i * 2 ^ 64 + (n - 1)) / n := ⟨_, rfl⟩
  have hdiv := div_add_mod (i * 2 ^ 64 + (n - 1)) n
  have hmod := mod_lt (i * 2 ^ 64 + (n - 1)) (zero_lt_of_lt hi)
  rw [← hk] at hdiv
  have hlt : k < 2 ^ 64 := by
    have hmul : (i + 1) * 2 ^ 64 ≤ n * 2 ^ 64 := mul_le_mul_right _ hi
    refine Nat.lt_of_mul_lt_mul_left (a := n) ?_
    omega
  refine ⟨UInt64.ofNat k, ?_⟩
  rw [fastBound, UInt64.toNat_ofNat_of_lt' hlt, mul_comm]
  omega

variable {R : Type} [Rand R]

def draw : StateM R UInt64 := Rand.next

/-- `below`, for a bound that is not zero. -/
def below (upperBoundExcl : ℕ) : StateM R ℕ := do return fastBound (← draw) upperBoundExcl

/-- `zero_upto`. The bound itself is not drawn. -/
def zeroUpto (n : ℕ) : StateM R ℕ := do return fastBound (← draw) n

/-- Whatever is drawn, the value that `m` returns is in `P`. -/
def Yields {R α : Type} (m : StateM R α) (P : α → Prop) : Prop := ∀ r, P (m r).1

namespace Yields
variable {α β : Type} {m : StateM R α} {P P' : α → Prop} {Q : β → Prop} {a : α}

omit [Rand R] in
theorem pure (h : P a) : Yields (Pure.pure a : StateM R α) P := fun _ => h

omit [Rand R] in
theorem bind {f : α → StateM R β} (h : Yields m P) (hf : ∀ a, P a → Yields (f a) Q) :
    Yields (m >>= f) Q := fun r => hf _ (h r) (m r).2

omit [Rand R] in
theorem mono (h : Yields m P) (hP : ∀ a, P a → P' a) : Yields m P' := fun r => hP _ (h r)

theorem draw : Yields (draw : StateM R UInt64) fun _ => True := fun _ => trivial

theorem below {n : ℕ} (hn : 0 < n) : Yields (below n : StateM R ℕ) (· < n) :=
  fun _ => fastBound_lt _ hn

theorem zeroUpto {n : ℕ} (hn : 0 < n) : Yields (zeroUpto n : StateM R ℕ) (· < n) :=
  fun _ => fastBound_lt _ hn

end Yields

/-- `between`, with both bounds included. -/
def between (lowerBoundIncl upperBoundIncl : ℕ) : StateM R ℕ := do
  return lowerBoundIncl + (← below (upperBoundIncl - lowerBoundIncl + 1))

theorem Yields.between {lo hi : ℕ} (h : lo ≤ hi) :
    Yields (between lo hi : StateM R ℕ) fun n => lo ≤ n ∧ n ≤ hi := by
  refine (Yields.below (succ_pos _)).bind fun n hn => Yields.pure ?_
  omega

/-! ### Choosing -/

/-- The loop of `choose` for an iterator that does not know its length: the element number `k`
    replaces the result with the chance `1 / k`. -/
def chooseLoop {α : Type} : List α → ℕ → Option α → StateM R (Option α)
  | [], _, result => pure result
  | elem :: iter, consumed, result => do
    let drawn ← below (consumed + 1)
    chooseLoop iter (consumed + 1) (if drawn = 0 then some elem else result)

/-- `choose` for an iterator whose lower size hint is 0, such as a filtered one. -/
def chooseFiltered {α : Type} (iter : List α) : StateM R (Option α) := chooseLoop iter 0 none

/-- `choose` for an iterator that knows its length. -/
def chooseExact {α : Type} (iter : List α) : StateM R (Option α) :=
  if iter.length = 0 then pure none else do return iter[← below iter.length]?

variable {α : Type}

theorem yields_chooseExact (iter : List α) :
    Yields (chooseExact iter : StateM R (Option α)) fun out => ∀ x ∈ out, x ∈ iter := by
  unfold chooseExact
  split
  · exact .pure fun x hx => by cases hx
  · next h =>
    refine (Yields.below (Nat.pos_of_ne_zero h)).bind fun i _ => .pure fun x hx => ?_
    exact mem_of_getElem? hx

theorem yields_chooseLoop : ∀ (iter : List α) (consumed : ℕ) (result : Option α),
    Yields (chooseLoop iter consumed result : StateM R (Option α)) fun out =>
      out = result ∨ ∃ x ∈ iter, out = some x
  | [], _, _ => .pure (.inl rfl)
  | elem :: iter, consumed, result => by
    refine (Yields.below (succ_pos _)).bind fun drawn _ =>
      (yields_chooseLoop iter _ _).mono fun out hout => ?_
    rcases hout with hout | ⟨x, hx, hout⟩
    · split at hout
      · exact .inr ⟨elem, mem_cons_self, hout⟩
      · exact .inl hout
    · exact .inr ⟨x, mem_cons_of_mem _ hx, hout⟩

/-- The first element is always taken at first, so that something is chosen from a list that is not
    empty. -/
theorem yields_chooseFiltered (iter : List α) :
    Yields (chooseFiltered iter : StateM R (Option α)) fun out =>
      (out = none ∧ iter = []) ∨ ∃ x ∈ iter, out = some x := by
  cases iter with
  | nil => exact .pure (.inl ⟨rfl, rfl⟩)
  | cons elem iter =>
    refine (Yields.below (succ_pos _)).bind fun drawn hdrawn =>
      (yields_chooseLoop iter _ _).mono fun out hout => ?_
    rw [if_pos (lt_one_iff.mp hdrawn)] at hout
    rcases hout with hout | ⟨x, hx, hout⟩
    · exact .inr ⟨elem, mem_cons_self, hout⟩
    · exact .inr ⟨x, mem_cons_of_mem _ hx, hout⟩

theorem exists_chooseFiltered_eq {iter : List α} {x : α} (hx : x ∈ iter) :
    ∃ ds : List UInt64, (chooseFiltered iter ds).1 = some x := by
  -- the largest word is never mapped to 0 behind the first element
  have hkeep : ∀ (iter : List α) (consumed : ℕ), 0 < consumed →
      ∃ ds : List UInt64, (chooseLoop iter consumed (some x) ds).1 = some x := by
    intro iter
    induction iter with
    | nil => exact fun _ _ => ⟨[], rfl⟩
    | cons elem iter ih =>
      intro consumed hpos
      obtain ⟨ds, hds⟩ := ih (consumed + 1) (succ_pos _)
      refine ⟨UInt64.ofNat (2 ^ 64 - 1) :: ds, ?_⟩
      have hne : fastBound (UInt64.ofNat (2 ^ 64 - 1)) (consumed + 1) ≠ 0 := by
        have hword : (UInt64.ofNat (2 ^ 64 - 1)).toNat = 2 ^ 64 - 1 := by decide
        rw [fastBound, hword]
        omega
      have hstep : chooseLoop (elem :: iter) consumed (some x) (UInt64.ofNat (2 ^ 64 - 1) :: ds) =
          chooseLoop iter (consumed + 1)
            (if fastBound (UInt64.ofNat (2 ^ 64 - 1)) (consumed + 1) = 0 then some elem else some x) ds := rfl
      rw [hstep, if_neg hne]
      exact hds
  have htake : ∀ (iter : List α) (consumed : ℕ) (result : Option α), x ∈ iter →
      ∃ ds : List UInt64, (chooseLoop iter consumed result ds).1 = some x := by
    intro iter
    induction iter with
    | nil => exact fun _ _ h => absurd h not_mem_nil
    | cons elem iter ih =>
      intro consumed result hmem
      have hstep : ∀ ds, chooseLoop (elem :: iter) consumed result ((0 : UInt64) :: ds) =
          chooseLoop iter (consumed + 1)
            (if fastBound 0 (consumed + 1) = 0 then some elem else result) ds := fun _ => rfl
      have hzero : fastBound 0 (consumed + 1) = 0 := by simp [fastBound]
      rcases mem_cons.mp hmem with rfl | hmem
      · obtain ⟨ds, hds⟩ := hkeep iter (consumed + 1) (succ_pos _)
        exact ⟨0 :: ds, by rw [hstep, if_pos hzero, hds]⟩
      · obtain ⟨ds, hds⟩ := ih (consumed + 1) (some elem) hmem
        exact ⟨0 :: ds, by rw [hstep, if_pos hzero, hds]⟩
  exact htake iter 0 none hx

/-! ### Code that draws and may panic -/

/-- A computation that draws numbers and may fail. -/
abbrev Drawing (R ε : Type) := StateT R (Except ε)

/-- Drawing never fails. -/
def Drawing.draw {R ε α : Type} (m : StateM R α) : Drawing R ε α := fun r => .ok (m r)

/-- A result or a failure that needs no draws. -/
def Drawing.ofResult {R ε α : Type} (x : Except ε α) : Drawing R ε α :=
  fun r => x.map fun a => (a, r)

namespace Drawing
variable {ε α β : Type} {m : Drawing R ε α} {f : α → Drawing R ε β} {r r' : R}

omit [Rand R]

theorem bind_eq_ok {b : β} :
    (m >>= f) r = .ok (b, r') ↔ ∃ a r₁, m r = .ok (a, r₁) ∧ f a r₁ = .ok (b, r') := by
  simp only [Bind.bind, StateT.bind, Except.bind]
  cases m r with
  | error e => simp
  | ok x =>
    obtain ⟨a, r₁⟩ := x
    constructor
    · intro h
      exact ⟨a, r₁, rfl, h⟩
    · rintro ⟨_, _, heq, h⟩
      cases heq
      exact h

theorem pure_eq_ok {a b : α} : (Pure.pure a : Drawing R ε α) r = .ok (b, r') ↔ a = b ∧ r = r' := by
  constructor
  · rintro ⟨⟩
    exact ⟨rfl, rfl⟩
  · rintro ⟨rfl, rfl⟩
    rfl

theorem throw_eq_ok {e : ε} {b : α} : ¬ (throw e : Drawing R ε α) r = .ok (b, r') := by
  intro h
  cases h

theorem draw_eq_ok {m : StateM R α} {b : α} :
    (draw m : Drawing R ε α) r = .ok (b, r') ↔ m r = (b, r') := by
  simp [draw]

theorem bind_ok {a : α} {r₁ : R} (h : m r = .ok (a, r₁)) : (m >>= f) r = f a r₁ := by
  simp only [Bind.bind, StateT.bind, h, Except.bind]

theorem ofResult_eq_ok {x : Except ε α} {b : α} :
    (ofResult x : Drawing R ε α) r = .ok (b, r') ↔ x = .ok b ∧ r = r' := by
  cases x <;> simp [ofResult, Except.map]

/-- Whatever is drawn, `m` returns a value in `P`. -/
def Returns (m : Drawing R ε α) (P : α → Prop) : Prop := ∀ r, ∃ a r', m r = .ok (a, r') ∧ P a

namespace Returns
variable {P P' : α → Prop} {Q : β → Prop}

omit [Rand R]

theorem pure {a : α} (h : P a) : Returns (Pure.pure a : Drawing R ε α) P := fun r => ⟨a, r, rfl, h⟩

theorem bind (h : Returns m P) (hf : ∀ a, P a → Returns (f a) Q) : Returns (m >>= f) Q := by
  intro r
  obtain ⟨a, r₁, hm, ha⟩ := h r
  obtain ⟨b, r₂, hb, hQ⟩ := hf a ha r₁
  exact ⟨b, r₂, (bind_ok hm).trans hb, hQ⟩

theorem mono (h : Returns m P) (hP : ∀ a, P a → P' a) : Returns m P' := by
  intro r
  obtain ⟨a, r₁, hm, ha⟩ := h r
  exact ⟨a, r₁, hm, hP a ha⟩

/-- A value that is returned also has what holds of every value that is returned. -/
theorem and (h : Returns m P) (hP' : ∀ r a r', m r = .ok (a, r') → P' a) :
    Returns m fun a => P a ∧ P' a := by
  intro r
  obtain ⟨a, r₁, hm, ha⟩ := h r
  exact ⟨a, r₁, hm, ha, hP' r a r₁ hm⟩

theorem of_eq_ok (h : Returns m P) {a : α} (hm : m r = .ok (a, r')) : P a := by
  obtain ⟨a', r₁, hok, ha⟩ := h r
  rw [hm] at hok
  cases hok
  exact ha

theorem draw {m : StateM R α} (h : Yields m P) : Returns (draw m : Drawing R ε α) P :=
  fun r => ⟨(m r).1, (m r).2, rfl, h r⟩

theorem ofResult_bind {x : Except ε α} {a : α} (hx : x = .ok a) (h : Returns (f a) Q) :
    Returns (ofResult x >>= f) Q := by
  subst hx
  exact h

end Returns

/-! ### Draws that lead to a given end -/

section
variable {m : Drawing (List UInt64) ε α} {f : α → Drawing (List UInt64) ε β} {ds ds' : List UInt64}
  {a : α} {b : β}

/-- The draws `ds` are used up, and `m` returns `a`. -/
def Leads (m : Drawing (List UInt64) ε α) (ds : List UInt64) (a : α) : Prop :=
  ∀ rest, m (ds ++ rest) = .ok (a, rest)

/-- With the draws `ds` in front, `m` does not return. -/
def Fails (m : Drawing (List UInt64) ε α) (ds : List UInt64) : Prop :=
  ∀ rest a r, m (ds ++ rest) ≠ .ok (a, r)

theorem Leads.pure : Leads (Pure.pure a : Drawing (List UInt64) ε α) [] a := fun _ => rfl

theorem Leads.bind (h : Leads m ds a) (h' : Leads (f a) ds' b) : Leads (m >>= f) (ds ++ ds') b := by
  intro rest
  rw [append_assoc, bind_ok (h _)]
  exact h' rest

theorem Leads.map (h : Leads m ds a) (g : α → β) : Leads (do return g (← m)) ds (g a) := by
  intro rest
  rw [bind_ok (h rest)]
  rfl

theorem Leads.fails (h : Leads m ds a) (h' : Fails (f a) ds') : Fails (m >>= f) (ds ++ ds') := by
  intro rest
  rw [append_assoc, bind_ok (h _)]
  exact h' rest

theorem Fails.bind (h : Fails m ds) : Fails (m >>= f) ds := by
  intro rest b r hok
  obtain ⟨a, r₁, hm, -⟩ := bind_eq_ok.mp hok
  exact h rest a r₁ hm

theorem Fails.throw {e : ε} : Fails (throw e : Drawing (List UInt64) ε α) [] :=
  fun _ _ _ h => throw_eq_ok h

theorem Leads.draw (x : UInt64) :
    Leads (draw Rand.draw : Drawing (List UInt64) ε UInt64) [x] x := fun _ => rfl

variable {x : Except ε α}

theorem Leads.ofResult (hx : x = .ok a) : Leads (ofResult x : Drawing (List UInt64) ε α) [] a := by
  subst hx
  exact fun _ => rfl

theorem Leads.ofResult_bind (hx : x = .ok a) (h : Leads (f a) ds b) :
    Leads (Drawing.ofResult x >>= f) ds b := by
  subst hx
  exact h

theorem Fails.ofResult_bind (hx : x = .ok a) (h : Fails (f a) ds) :
    Fails (Drawing.ofResult x >>= f) ds := by
  subst hx
  exact h

theorem Fails.ofResult {e : ε} (hx : x = .error e) :
    Fails (ofResult x : Drawing (List UInt64) ε α) [] := by
  subst hx
  intro rest b r h
  cases h

theorem exists_leads_below {n i : ℕ} (hn : n ≤ 2 ^ 64) (hi : i < n) :
    ∃ ds, Leads (Drawing.draw (below n) : Drawing (List UInt64) ε ℕ) ds i := by
  obtain ⟨x, hx⟩ := exists_fastBound_eq hn hi
  refine ⟨[x], fun rest => ?_⟩
  rw [← hx]
  rfl

theorem leads_below_zero (n : ℕ) :
    Leads (Drawing.draw (below n) : Drawing (List UInt64) ε ℕ) [0] 0 := by
  intro rest
  have hzero : fastBound 0 n = 0 := by simp [fastBound]
  rw [← hzero]
  rfl

/-- With some draws `m` comes to an end, of one kind or the other. -/
def Settles (m : Drawing (List UInt64) ε α) : Prop := ∃ ds, (∃ a, Leads m ds a) ∨ Fails m ds

theorem Leads.settles (h : Leads m ds a) : Settles m := ⟨ds, .inl ⟨a, h⟩⟩

theorem Fails.settles (h : Fails m ds) : Settles m := ⟨ds, .inr h⟩

theorem Settles.bind (h : Settles m) (hf : ∀ a, Settles (f a)) : Settles (m >>= f) := by
  obtain ⟨ds, ⟨a, hlead⟩ | hfail⟩ := h
  · obtain ⟨ds', ⟨b, hlead'⟩ | hfail'⟩ := hf a
    · exact (hlead.bind hlead').settles
    · exact (hlead.fails hfail').settles
  · exact hfail.bind.settles

end

end Drawing

end Rand

end Bofuzz
