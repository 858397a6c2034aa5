import Bofuzz.Lib.Loop
import Mathlib.Tactic.Linarith

/-! `integer_sqrt`: the square root of a `u64`, rounded down, by bisection. A sum that leaves the
    `u64`s and a difference below zero are panics and have no result. -/

namespace Bofuzz.IntegerSqrt
open Loop

def add (a b : ℕ) : Prog ℕ := ofOption (if a + b < 2 ^ 64 then some (a + b) else none)

def sub (a b : ℕ) : Prog ℕ := ofOption (if b ≤ a then some (a - b) else none)

def saturatingMul (a b : ℕ) : ℕ := min (a * b) (2 ^ 64 - 1)

/-- The variables of the loop; `last` is the `i - 1` that the next test reads. -/
structure Vars where
  ret : ℕ
  i : ℕ
  last : ℕ

/-- The body of the loop, and the `i - 1` of the test after it. -/
def round (val : ℕ) (s : Vars) : Prog Vars := do
  let sum ← add s.ret s.i
  let m := sum / 2
  if saturatingMul m m ≤ val then return ⟨m, s.i, ← sub s.i 1⟩
  else return ⟨s.ret, m, ← sub m 1⟩

def integerSqrt (val : ℕ) : Prog ℕ := do
  if val = 2 ^ 64 - 1 then return 2 ^ 32 - 1
  else
    let i ← add val 1
    let s ← whileLoopM (fun s => s.ret != s.last) (round val) ⟨0, i, ← sub i 1⟩
    return s.ret

/-- The root lies in `ret..i`. As long as `ret` is zero `i` may be any `u64`; the first middle that
    is small enough is below `2 ^ 32`, and `i` is then at most one more than twice that. -/
structure Inv (val : ℕ) (s : Vars) : Prop where
  lt : s.ret < s.i
  last : s.last + 1 = s.i
  root : s.ret * s.ret ≤ val ∧ val < s.i * s.i
  room : s.ret + s.i < 2 ^ 64
  small : s.ret = 0 ∨ s.i ≤ 2 ^ 33

theorem sub_ends {a b : ℕ} (h : b ≤ a) : Ends (sub a b) (· = a - b) := .ofOption (if_pos h) rfl

theorem saturatingMul_le_iff {val : ℕ} (hval : val < 2 ^ 64 - 1) (m : ℕ) :
    saturatingMul m m ≤ val ↔ m * m ≤ val := by
  rw [saturatingMul, min_le_iff, or_iff_left hval.not_ge]

/-- A round neither overflows nor underflows, keeps the root in the range and shrinks it. -/
theorem round_ends {val : ℕ} {s : Vars} (hval : val < 2 ^ 64 - 1) (h : Inv val s)
    (hne : s.ret ≠ s.last) : Ends (round val s) fun t => Inv val t ∧ t.i - t.ret < s.i - s.ret := by
  obtain ⟨hlt, hlast, hroot, hroom, hsmall⟩ := h
  refine .bind (.ofOption (if_pos hroom) rfl) fun sum hsum => ?_
  obtain ⟨m, hm⟩ : ∃ m, sum / 2 = m := ⟨_, rfl⟩
  simp only [hm, saturatingMul_le_iff hval]
  split_ifs with hle
  · have hroot32 : m < 2 ^ 32 := Nat.mul_self_lt_mul_self_iff.mp (by omega)
    refine .bind (sub_ends (by omega)) fun last hlast => .pure ?_
    refine ⟨⟨?_, ?_, ⟨hle, hroot.2⟩, ?_, .inr ?_⟩, ?_⟩ <;> dsimp only <;> omega
  · refine .bind (sub_ends (by omega)) fun last hlast => .pure ?_
    refine ⟨⟨?_, ?_, ⟨hroot.1, not_le.mp hle⟩, ?_, ?_⟩, ?_⟩ <;> dsimp only <;> omega

/-- For every `u64` the loop ends without overflow or underflow, at the rounded-down root. -/
theorem integer_sqrt_floor (val : UInt64) : Ends (integerSqrt val.toNat) fun ret =>
    ret * ret ≤ val.toNat ∧ val.toNat < (ret + 1) * (ret + 1) := by
  have hbound : val.toNat < 2 ^ 64 := val.toNat_lt
  generalize val.toNat = val at hbound ⊢
  unfold integerSqrt
  split_ifs with hmax
  · exact .pure (by omega)
  have hval : val < 2 ^ 64 - 1 := by omega
  refine .bind (.ofOption (if_pos (by omega)) rfl) fun i hi => ?_
  refine .bind (sub_ends (by omega)) fun last hlast => ?_
  have hstart : Inv val ⟨0, i, last⟩ := by
    refine ⟨?_, ?_, ⟨zero_le, ?_⟩, ?_, .inl rfl⟩ <;> dsimp only <;> try omega
    rw [← hi]
    nlinarith
  refine .bind (.whileLoopM (fun s => s.i - s.ret) hstart fun s h hne => ?_) fun s hs => .pure ?_
  · exact round_ends hval h (bne_iff_ne.mp hne)
  · have hend : s.ret = s.last := by simpa using hs.2
    rw [hend, hs.1.last, ← hend]
    exact hs.1.root

end Bofuzz.IntegerSqrt
