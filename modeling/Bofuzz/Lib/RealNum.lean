import Bofuzz.Lib.Num
import Mathlib.Analysis.SpecialFunctions.Pow.Real

/-! Double-precision arithmetic over the real numbers.

    `ExactReal` is what `Exact` is with real numbers for the finite values: nothing is rounded and
    the roots and logarithms are the true ones, so that facts about them can be stated. It does not
    compute. -/

/-- Doubles without rounding: NaN, the two infinities (`inf true` is the negative one) and the real
    numbers. -/
inductive ExactReal where
  | nan
  | inf (negative : Bool)
  | fin (x : ℝ)

namespace ExactReal

noncomputable section

def neg : ExactReal → ExactReal
  | nan => nan
  | inf s => inf (!s)
  | fin x => fin (-x)

def add : ExactReal → ExactReal → ExactReal
  | fin x, fin y => fin (x + y)
  | inf s, inf t => if s = t then inf s else nan
  | inf s, fin _ => inf s
  | fin _, inf t => inf t
  | _, _ => nan

def mul : ExactReal → ExactReal → ExactReal
  | fin x, fin y => fin (x * y)
  | inf s, inf t => inf (s != t)
  | inf s, fin y => if y = 0 then nan else inf (s != decide (y < 0))
  | fin x, inf t => if x = 0 then nan else inf (t != decide (x < 0))
  | _, _ => nan

def div : ExactReal → ExactReal → ExactReal
  | fin x, fin y => if y = 0 then (if x = 0 then nan else inf (decide (x < 0))) else fin (x / y)
  | fin _, inf _ => fin 0
  | inf s, fin y => inf (s != decide (y < 0))
  | _, _ => nan

def le : ExactReal → ExactReal → Bool
  | fin x, fin y => decide (x ≤ y)
  | inf true, inf _ => true
  | inf true, fin _ => true
  | inf false, inf t => !t
  | fin _, inf t => !t
  | _, _ => false

def lt (x y : ExactReal) : Bool := le x x && le y y && !le y x

/-- `f64::max`: a NaN operand is ignored. -/
def max : ExactReal → ExactReal → ExactReal
  | nan, y => y
  | x, nan => x
  | x, y => if le x y then y else x

def sqrt : ExactReal → ExactReal
  | fin x => if x < 0 then nan else fin (Real.sqrt x)
  | inf false => inf false
  | _ => nan

def exp : ExactReal → ExactReal
  | fin x => fin (Real.exp x)
  | inf true => fin 0
  | x => x

def ln : ExactReal → ExactReal
  | fin x => if x < 0 then nan else if x = 0 then inf true else fin (Real.log x)
  | inf false => inf false
  | _ => nan

def tanh : ExactReal → ExactReal
  | fin x => fin (Real.tanh x)
  | inf s => fin (if s then -1 else 1)
  | nan => nan

def cos : ExactReal → ExactReal
  | fin x => fin (Real.cos x)
  | _ => nan

def ceilNat : ExactReal → ℕ
  | fin x => ⌈x⌉₊
  | inf false => 2 ^ 64 - 1
  | _ => 0

instance : F64 ExactReal where
  lit q := fin q
  add := add
  sub x y := add x (neg y)
  mul := mul
  div := div
  max := max
  abs x := if lt x (fin 0) then neg x else x
  sqrt := sqrt
  exp := exp
  ln := ln
  tanh := tanh
  cos := cos
  powf x y := exp (mul y (ln x))
  lt := lt
  le := le
  isFinite x := match x with | fin _ => true | _ => false
  negInfinity := inf true
  ceilNat := ceilNat

end

/-! ### Arithmetic on the finite values -/

open F64

theorem lit_eq (q : ℚ) : (F64.lit q : ExactReal) = fin q := rfl

theorem ofNat_eq (n : ℕ) : (F64.ofNat n : ExactReal) = fin n := by
  show fin ((n : ℚ) : ℝ) = fin n
  rw [Rat.cast_natCast]

variable (x y : ℝ)

@[simp] theorem fin_add : (fin x + fin y : ExactReal) = fin (x + y) := rfl

@[simp] theorem fin_sub : (fin x - fin y : ExactReal) = fin (x - y) := by
  show fin (x + -y) = fin (x - y)
  rw [sub_eq_add_neg]

@[simp] theorem fin_mul : (fin x * fin y : ExactReal) = fin (x * y) := rfl

theorem fin_div (x : ℝ) {y : ℝ} (hy : y ≠ 0) : (fin x / fin y : ExactReal) = fin (x / y) :=
  if_neg hy

theorem sqrt_fin {x : ℝ} (hx : 0 ≤ x) : F64.sqrt (fin x) = fin (Real.sqrt x) := if_neg hx.not_gt

theorem ln_fin {x : ℝ} (hx : 0 < x) : F64.ln (fin x) = fin (Real.log x) := by
  show (if x < 0 then nan else if x = 0 then inf true else fin (Real.log x)) = _
  rw [if_neg hx.not_gt, if_neg hx.ne']

theorem ln_zero : F64.ln (fin 0) = inf true := by
  show (if (0 : ℝ) < 0 then nan else if (0 : ℝ) = 0 then inf true else fin (Real.log 0)) = _
  rw [if_neg (lt_irrefl 0), if_pos rfl]

theorem max_fin : F64.max (fin x) (fin y) = fin (Max.max x y) := by
  show (if decide (x ≤ y) = true then fin y else fin x) = _
  simp only [decide_eq_true_eq]
  split_ifs with h
  · rw [max_eq_right h]
  · rw [max_eq_left (le_of_not_ge h)]

theorem lt_fin : F64.lt (fin x) (fin y) = true ↔ x < y := by
  show (le (fin x) (fin x) && le (fin y) (fin y) && !le (fin y) (fin x)) = true ↔ _
  simp [le]

/-! ### Products of factors -/

/-- A finite value above zero. -/
def Positive (x : ExactReal) : Prop := ∃ r : ℝ, x = fin r ∧ 0 < r

/-- NaN, an infinity or zero: a factor of these leaves no positive product. -/
def Degenerate : ExactReal → Prop
  | fin r => r = 0
  | _ => True

variable {x y : ExactReal}

theorem Positive.mul (hx : Positive x) (hy : Positive y) : Positive (x * y) := by
  obtain ⟨r, rfl, hr⟩ := hx
  obtain ⟨t, rfl, ht⟩ := hy
  exact ⟨r * t, fin_mul r t, mul_pos hr ht⟩

theorem Positive.div (hx : Positive x) (hy : Positive y) : Positive (x / y) := by
  obtain ⟨r, rfl, hr⟩ := hx
  obtain ⟨t, rfl, ht⟩ := hy
  exact ⟨r / t, fin_div r ht.ne', div_pos hr ht⟩

theorem Degenerate.mul (h : Degenerate x ∨ Degenerate y) : Degenerate (x * y) := by
  cases x <;> cases y
  case fin.fin r t => exact mul_eq_zero.mpr h
  case inf.fin s t =>
    show Degenerate (if t = 0 then nan else _)
    split_ifs <;> trivial
  case fin.inf r s =>
    show Degenerate (if r = 0 then nan else _)
    split_ifs <;> trivial
  all_goals trivial

/-- A factor that is positive or leaves no positive product, and which of the two it is. -/
structure Factor (x : ExactReal) (positive : Prop) : Prop where
  pos : positive → Positive x
  deg : ¬ positive → Degenerate x

theorem Factor.mul {p q : Prop} (hx : Factor x p) (hy : Factor y q) : Factor (x * y) (p ∧ q) where
  pos := fun h => (hx.pos h.1).mul (hy.pos h.2)
  deg := fun h => .mul ((not_and_or.mp h).imp hx.deg hy.deg)

theorem Positive.factor (hx : Positive x) : Factor x True :=
  ⟨fun _ => hx, fun h => absurd trivial h⟩

theorem Degenerate.factor (hx : Degenerate x) : Factor x False :=
  ⟨False.elim, fun _ => hx⟩

theorem Factor.congr {p q : Prop} (hx : Factor x p) (h : p ↔ q) : Factor x q :=
  ⟨fun hq => hx.pos (h.mpr hq), fun hq => hx.deg fun hp => hq (h.mp hp)⟩

theorem Factor.mul_positive {p : Prop} (hx : Factor x p) (hy : Positive y) : Factor (x * y) p :=
  (hx.mul hy.factor).congr (and_iff_left trivial)

theorem Factor.ite_positive {p c : Prop} [Decidable c] (hx : Factor x p) (hy : c → Positive y) :
    Factor (if c then x * y else x) p := by
  split_ifs with h
  · exact hx.mul_positive (hy h)
  · exact hx

theorem Factor.ite_degenerate {p c : Prop} [Decidable c] (hx : Factor x p) (hy : Degenerate y) :
    Factor (if c then x * y else x) (¬ c ∧ p) := by
  split_ifs with h
  · exact (hx.mul hy.factor).congr (by simp [h])
  · exact hx.congr (by simp [h])

end ExactReal
