import Mathlib.Data.Rat.Floor

/-! Double-precision arithmetic as a parameter.

    `F64 F` lists the operations on doubles that a program can use; a program is written once over
    `[F64 F]` and what is proved of it holds for every arithmetic. `LawfulF64` adds the facts about
    comparison that IEEE 754 guarantees. `Exact` is the arithmetic in which a finite value is a
    rational number and nothing is rounded: it computes, so that runs can be evaluated. The
    transcendental functions of `Exact` are rational stand-ins (Padé approximants of lowest order,
    `exp` and `ln` inverse to each other; `sqrt` to twelve digits). -/

/-- The operations on doubles. `lit q` is the double that a literal or an integer denotes. -/
class F64 (F : Type) where
  lit : ℚ → F
  add : F → F → F
  sub : F → F → F
  mul : F → F → F
  div : F → F → F
  max : F → F → F
  abs : F → F
  sqrt : F → F
  exp : F → F
  ln : F → F
  tanh : F → F
  cos : F → F
  powf : F → F → F
  lt : F → F → Bool
  le : F → F → Bool
  isFinite : F → Bool
  negInfinity : F
  /-- `x.ceil() as usize`: rounded up, saturating at zero. -/
  ceilNat : F → ℕ

/-- A generator of random numbers: a double of the unit interval, or an index below a bound. -/
class Draw (F G : Type) where
  nextFloat : G → F × G
  below : (n : ℕ) → 0 < n → G → Fin n × G

namespace F64

section
variable {F : Type} [F64 F]

scoped instance : Add F := ⟨F64.add⟩
scoped instance : Sub F := ⟨F64.sub⟩
scoped instance : Mul F := ⟨F64.mul⟩
scoped instance : Div F := ⟨F64.div⟩

/-- An integer as a double. -/
def ofNat (n : ℕ) : F := F64.lit n

/-- A value that is not NaN: comparison with itself succeeds. -/
def isNum (x : F) : Bool := F64.le x x

/-- `partial_cmp`: no answer when a NaN is involved. -/
def partialCmp (x y : F) : Option Ordering :=
  if F64.lt x y then some .lt
  else if F64.lt y x then some .gt
  else if F64.le x y then some .eq
  else none

/-- The sum of a list, added up from the left starting at zero. -/
def sum (xs : List F) : F := xs.foldl (· + ·) (F64.lit 0)

end

/-- What IEEE 754 guarantees about comparison: a total preorder on the values that are not NaN, and
    literals are not NaN and keep their order. -/
class LawfulF64 (F : Type) [F64 F] : Prop where
  le_trans : ∀ x y z : F, F64.le x y → F64.le y z → F64.le x z
  le_total : ∀ x y : F, isNum x → isNum y → F64.le x y ∨ F64.le y x
  lt_iff : ∀ x y : F, F64.lt x y ↔ isNum x ∧ isNum y ∧ ¬ F64.le y x
  isNum_lit : ∀ q : ℚ, isNum (F64.lit q : F)
  lit_le : ∀ p q : ℚ, p ≤ q → F64.le (F64.lit p : F) (F64.lit q)
  isNum_of_le : ∀ x y : F, F64.le x y → isNum x ∧ isNum y

end F64

/-- Doubles without rounding: NaN, the two infinities (`inf true` is the negative one) and the
    rational numbers. -/
inductive Exact where
  | nan
  | inf (negative : Bool)
  | fin (q : ℚ)
  deriving DecidableEq

namespace Exact

def neg : Exact → Exact
  | nan => nan
  | inf s => inf (!s)
  | fin q => fin (-q)

def add : Exact → Exact → Exact
  | fin p, fin q => fin (p + q)
  | inf s, inf t => if s = t then inf s else nan
  | inf s, fin _ => inf s
  | fin _, inf t => inf t
  | _, _ => nan

def mul : Exact → Exact → Exact
  | fin p, fin q => fin (p * q)
  | inf s, inf t => inf (s != t)
  | inf s, fin q => if q = 0 then nan else inf (s != decide (q < 0))
  | fin p, inf t => if p = 0 then nan else inf (t != decide (p < 0))
  | _, _ => nan

def div : Exact → Exact → Exact
  | fin p, fin q => if q = 0 then (if p = 0 then nan else inf (decide (p < 0))) else fin (p / q)
  | fin _, inf _ => fin 0
  | inf s, fin q => inf (s != decide (q < 0))
  | _, _ => nan

def le : Exact → Exact → Bool
  | fin p, fin q => decide (p ≤ q)
  | inf true, inf _ => true
  | inf true, fin _ => true
  | inf false, inf t => !t
  | fin _, inf t => !t
  | _, _ => false

def lt (x y : Exact) : Bool := le x x && le y y && !le y x

/-- `f64::max`: a NaN operand is ignored. -/
def max (x y : Exact) : Exact :=
  if x = nan then y else if y = nan then x else if le x y then y else x

def sqrt : Exact → Exact
  | fin q =>
    if q < 0 then nan
    else fin ((Nat.sqrt (q.num.toNat * q.den * 10 ^ 24) : ℚ) / (q.den * 10 ^ 12))
  | inf false => inf false
  | _ => nan

def exp : Exact → Exact
  | fin q => if q ≤ -2 then fin 0 else if 2 ≤ q then inf false else fin ((2 + q) / (2 - q))
  | inf true => fin 0
  | x => x

def ln : Exact → Exact
  | fin q => if q < 0 then nan else if q = 0 then inf true else fin (2 * (q - 1) / (q + 1))
  | inf false => inf false
  | _ => nan

def tanh : Exact → Exact
  | fin q => if q ≤ -1 then fin (-1) else if 1 ≤ q then fin 1 else fin q
  | inf s => fin (if s then -1 else 1)
  | nan => nan

def cos : Exact → Exact
  | fin q => fin (1 - q * q / 2)
  | _ => nan

def ceilNat : Exact → ℕ
  | fin q => ⌈q⌉.toNat
  | inf false => 2 ^ 64 - 1
  | _ => 0

instance : F64 Exact where
  lit := fin
  add := add
  sub x y := add x (neg y)
  mul := mul
  div := div
  max := max
  abs x := if lt x (fin 0) then neg x else x
  sqrt := sqrt
  exp := exp
  ln := ln
  tanh := tanh
  cos := cos
  powf x y := if y = fin (1 / 2) then sqrt x else exp (mul y (ln x))
  lt := lt
  le := le
  isFinite x := match x with | fin _ => true | _ => false
  negInfinity := inf true
  ceilNat := ceilNat

theorem le_trans' : ∀ x y z : Exact, le x y = true → le y z = true → le x z = true
  | fin p, fin q, fin r, h₁, h₂ => by
    simp only [le, decide_eq_true_eq] at h₁ h₂ ⊢
    exact le_trans h₁ h₂
  | fin _, fin _, inf t, _, h₂ => by simpa [le] using h₂
  | fin _, inf false, z, _, h₂ => by cases z <;> simp_all [le]
  | fin _, inf true, _, h₁, _ => by simp [le] at h₁
  | inf true, y, z, _, h₂ => by cases z <;> cases y <;> simp_all [le]
  | inf false, inf false, _, _, h₂ => h₂
  | inf false, inf true, _, h₁, _ => by simp [le] at h₁
  | inf false, fin _, _, h₁, _ => by simp [le] at h₁
  | nan, _, _, h₁, _ => by simp [le] at h₁
  | fin _, nan, _, h₁, _ => by simp [le] at h₁
  | inf false, nan, _, h₁, _ => by simp [le] at h₁
  | fin _, fin _, nan, _, h₂ => by simp [le] at h₂

theorem le_total' : ∀ x y : Exact, le x x = true → le y y = true → le x y = true ∨ le y x = true
  | fin p, fin q, _, _ => by
    simp only [le, decide_eq_true_eq]
    exact le_total p q
  | inf s, y, _, hy => by cases s <;> cases y with
      | inf t => cases t <;> simp [le]
      | fin _ => simp [le]
      | nan => simp [le] at hy
  | fin _, inf t, _, _ => by cases t <;> simp [le]
  | nan, _, hx, _ => by simp [le] at hx
  | fin _, nan, _, hy => by simp [le] at hy

theorem isNum_of_le' : ∀ x y : Exact, le x y = true → le x x = true ∧ le y y = true
  | fin _, fin _, _ => by simp [le]
  | inf s, fin _, _ => by cases s <;> simp [le]
  | fin _, inf t, _ => by cases t <;> simp [le]
  | inf s, inf t, _ => by cases s <;> cases t <;> simp [le]
  | nan, _, h => by simp [le] at h
  | fin _, nan, h => by simp [le] at h
  | inf s, nan, h => by cases s <;> simp [le] at h

/-- The comparison of `Exact` is lawful. -/
instance : F64.LawfulF64 Exact where
  le_trans := le_trans'
  le_total := le_total'
  lt_iff x y := by
    show lt x y = true ↔ le x x = true ∧ le y y = true ∧ ¬ le y x = true
    simp [lt, and_assoc]
  isNum_lit q := by
    show le (fin q) (fin q) = true
    simp [le]
  lit_le p q h := by
    show le (fin p) (fin q) = true
    simpa [le] using h
  isNum_of_le := isNum_of_le'

/-! ### Arithmetic on the finite values -/

open F64

theorem lit_eq (q : ℚ) : (F64.lit q : Exact) = fin q := rfl

@[simp] theorem fin_add (p q : ℚ) : (fin p + fin q : Exact) = fin (p + q) := rfl

@[simp] theorem fin_mul (p q : ℚ) : (fin p * fin q : Exact) = fin (p * q) := rfl

theorem fin_div (p : ℚ) {q : ℚ} (hq : q ≠ 0) : (fin p / fin q : Exact) = fin (p / q) := if_neg hq

@[simp] theorem lt_fin (p q : ℚ) : F64.lt (fin p) (fin q) = decide (p < q) := by
  show lt (fin p) (fin q) = decide (p < q)
  simp [lt, le, ← decide_not]

theorem max_fin_zero {q : ℚ} (hq : 0 ≤ q) : F64.max (fin q) (fin 0) = fin q := by
  show max (fin q) (fin 0) = fin q
  rw [max, if_neg (by simp), if_neg (by simp)]
  split_ifs with h
  · rw [show (0 : ℚ) = q from hq.antisymm (by simpa [le] using h)]
  · rfl

theorem sum_map_fin (qs : List ℚ) : F64.sum (qs.map fin) = fin qs.sum := by
  suffices h : ∀ p : ℚ, (qs.map fin).foldl (· + ·) (fin p) = fin (p + qs.sum) by
    have h0 := h 0
    rwa [zero_add] at h0
  induction qs with
  | nil => intro p; simp
  | cons q qs ih =>
    intro p
    rw [List.map_cons, List.foldl_cons, fin_add, ih, List.sum_cons, add_assoc]

end Exact

/-- A script of draws; beyond its end every draw is one half, or the first index. -/
instance : Draw Exact (List ℚ) where
  nextFloat g := (.fin (g.head?.getD (1 / 2)), g.tail)
  below n h g := (⟨(g.head?.getD 0).num.toNat % n, Nat.mod_lt _ h⟩, g.tail)
