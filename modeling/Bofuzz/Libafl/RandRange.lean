import Bofuzz.Libafl.BytesSwap
import Mathlib.Order.Interval.Finset.Nat

/-! The ranges that the mutators draw (`libafl/src/mutators/mutations.rs`).

    The first draw fixes the length of a window. The second one places the window so that it may
    stick out at either end of the buffer, and what sticks out is cut off. This makes up for the
    fewer windows that fit around an index near the ends. -/

namespace Bofuzz.BytesSwap
open Bofuzz.Rand Finset

/-- The range for a window of length `len`, placed by the bounded value of the second draw. -/
def window (upper len placed : ℕ) : Range :=
  ⟨1 + placed - len, if upper < 1 + placed then upper else 1 + placed⟩

/-- The length that the first draw gives. -/
def windowLen (maxLen : ℕ) (first : UInt64) : ℕ := 1 + fastBound first maxLen

/-- The number of places for a window. -/
def places (upper len : ℕ) : ℕ := upper + len - 1

def Range.Contains (r : Range) (i : ℕ) : Prop := r.start ≤ i ∧ i < r.stop

instance (r : Range) (i : ℕ) : Decidable (r.Contains i) := inferInstanceAs (Decidable (_ ∧ _))

theorem windowLen_le {maxLen : ℕ} (hmax : 1 ≤ maxLen) (first : UInt64) :
    1 ≤ windowLen maxLen first ∧ windowLen maxLen first ≤ maxLen := by
  have hlt := fastBound_lt first hmax
  rw [windowLen]
  omega

section
variable {upper len placed : ℕ}

/-- The places for a window that covers an index are `len` consecutive ones. -/
theorem window_contains_iff {i : ℕ} (hi : i < upper) :
    (window upper len placed).Contains i ↔ i ≤ placed ∧ placed < i + len := by
  simp only [window, Range.Contains]
  split_ifs <;> omega

theorem card_covering {i : ℕ} (hi : i < upper) :
    ((range (places upper len)).filter fun placed => (window upper len placed).Contains i).card = len := by
  have hcover : ((range (places upper len)).filter fun placed =>
      (window upper len placed).Contains i) = Finset.Ico i (i + len) := by
    ext placed
    simp only [mem_filter, mem_range, mem_Ico, window_contains_iff hi, places]
    omega
  rw [hcover, Nat.card_Ico, Nat.add_sub_cancel_left]

end

variable {R : Type} [Rand R]

/-- For every generator the range is the window at the bounded value of the second draw; it is not
    empty, within the buffer and not too long. For every first draw, every index is in the window
    for the same number of these values. -/
theorem rand_range_fair (upper maxLen : ℕ) (hupper : 1 ≤ upper) (hmax : 1 ≤ maxLen) :
    (∀ rand : R,
      let len := windowLen maxLen (next rand).1
      let placed := fastBound (next (next rand).2).1 (places upper len)
      let range := (randRange upper maxLen rand).1
      placed < places upper len ∧ range = window upper len placed ∧
        range.start < range.stop ∧ range.stop ≤ upper ∧ range.len ≤ maxLen) ∧
    ∀ first : UInt64, ∀ i < upper,
      ((range (places upper (windowLen maxLen first))).filter fun placed =>
        (window upper (windowLen maxLen first) placed).Contains i).card = windowLen maxLen first := by
  refine ⟨fun rand => ?_, fun first i hi => card_covering hi⟩
  obtain ⟨hpos, -⟩ := windowLen_le hmax (next rand).1
  have hplaces : 0 < places upper (windowLen maxLen (next rand).1) := by
    rw [places]
    omega
  exact ⟨fastBound_lt _ hplaces, rfl, yields_randRange hupper hmax rand⟩

/-- Four bytes and windows of at most two: the first byte is as often in the range as the second. -/
theorem rand_range_fair_four :
    (randRange 4 2 ([0x8000000000000000, 0] : List UInt64)).1 = window 4 2 0 ∧
      ((range (places 4 2)).filter fun placed => (window 4 2 placed).Contains 0).card = 2 ∧
      ((range (places 4 2)).filter fun placed => (window 4 2 placed).Contains 1).card = 2 := by
  obtain ⟨hall, hfair⟩ := rand_range_fair (R := List UInt64) 4 2 (by decide) (by decide)
  have hlen : windowLen 2 0x8000000000000000 = 2 := by decide
  have hcount := hfair 0x8000000000000000
  rw [hlen] at hcount
  exact ⟨(hall [0x8000000000000000, 0]).2.1.trans (by decide), hcount 0 (by decide),
    hcount 1 (by decide)⟩

end Bofuzz.BytesSwap
