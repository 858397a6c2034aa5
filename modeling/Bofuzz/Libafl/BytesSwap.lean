import Bofuzz.Libafl.Rand
import Mathlib.Data.List.Basic

/-! The mutator that swaps two ranges of bytes (`libafl/src/mutators/mutations.rs`).

    Two disjoint ranges are drawn, the later one is saved in a buffer of the mutator, and three
    moves within the input exchange them. `swapRanges_eq` says what the moves leave, for all five
    pieces the ranges cut the input into: the bytes between the ranges are moved before the earlier
    range is copied, so that they can overwrite the end of it if the earlier range is the longer
    one. -/

namespace Bofuzz.BytesSwap
open Bofuzz.Rand List

abbrev Bytes := List UInt8

/-- `Range<usize>`. -/
structure Range where
  start : ℕ
  stop : ℕ
  deriving DecidableEq

def Range.len (r : Range) : ℕ := r.stop - r.start

inductive MutationResult where
  | mutated
  | skipped
  deriving DecidableEq

/-- A `debug_assert!` of one of the copying functions. -/
inductive Panic where
  | bounds
  deriving DecidableEq

/-! ### Copying -/

/-- `core::ptr::copy`: the source is read as it was before. -/
def copy (dst src : Bytes) (source target len : ℕ) : Bytes :=
  dst.take target ++ (src.drop source).take len ++ dst.drop (target + len)

variable (data : Bytes)

def bufferSelfCopy (source target len : ℕ) : Except Panic Bytes :=
  if data ≠ [] ∧ source + len ≤ data.length ∧ target + len ≤ data.length then
    .ok (if len ≠ 0 ∧ source ≠ target then copy data data source target len else data)
  else .error .bounds

def bufferCopy (dst src : Bytes) (source target len : ℕ) : Except Panic Bytes :=
  if dst ≠ [] ∧ src ≠ [] ∧ source + len ≤ src.length ∧ target + len ≤ dst.length then
    .ok (if len ≠ 0 then copy dst src source target len else dst)
  else .error .bounds

/-- `Vec::resize` with zeros. -/
def resize (buf : Bytes) (len : ℕ) : Bytes := buf.take len ++ List.replicate (len - buf.length) 0

/-! ### The mutator -/

/-- The four ways the source exchanges two ranges are two: which of them was drawn first does not
    matter, the later one is saved. -/
def swapRanges (tmpBuf data : Bytes) (earlier later : Range) : Except Panic (Bytes × Bytes) := do
  let tmpBuf := resize tmpBuf later.len
  if earlier.len ≤ later.len then
    let diffInSize := later.len - earlier.len
    let tmpBuf ← bufferCopy tmpBuf data later.start 0 later.len
    let data ← bufferSelfCopy data earlier.stop (earlier.stop + diffInSize)
      (later.start - earlier.stop)
    let data ← bufferSelfCopy data earlier.start (later.start + diffInSize) earlier.len
    let data ← bufferCopy data tmpBuf 0 earlier.start later.len
    return (tmpBuf, data)
  else
    let diffInSize := earlier.len - later.len
    let tmpBuf ← bufferCopy tmpBuf data later.start 0 later.len
    let data ← bufferSelfCopy data earlier.stop (earlier.stop - diffInSize)
      (later.start - earlier.stop)
    let data ← bufferSelfCopy data earlier.start (later.start - diffInSize) earlier.len
    let data ← bufferCopy data tmpBuf 0 earlier.start later.len
    return (tmpBuf, data)

section
variable {R : Type} [Rand R]

/-- `rand_range`. -/
def randRange (upper maxLen : ℕ) : StateM R Range := do
  let len := 1 + (← below maxLen)
  let offset2 := 1 + (← zeroUpto (upper + len - 1))
  let offset1 := offset2 - len
  return ⟨offset1, if upper < offset2 then upper else offset2⟩

/-- The earlier and the later one of the ranges that `mutate` draws, if there is a second one. -/
def drawRanges (size : ℕ) : StateM R (Option (Range × Range)) := do
  let first ← randRange size size
  if (← draw) &&& 1 = 0 ∧ first.start ≠ 0 then
    let second ← randRange first.start first.start
    return some (second, first)
  else if first.stop ≠ size then
    let second ← randRange (size - first.stop) (size - first.stop)
    return some (first, ⟨second.start + first.stop, second.stop + first.stop⟩)
  else return none

/-- `BytesSwapMutator::mutate` on a mutator with the buffer `tmpBuf`: the result, the buffer and the
    input afterwards. -/
def mutate (tmpBuf data : Bytes) (rand : R) : Except Panic (MutationResult × Bytes × Bytes) := do
  if data.length ≤ 1 then return (.skipped, tmpBuf, data)
  else
    match (drawRanges data.length rand).1 with
    | none => return (.skipped, tmpBuf, data)
    | some (earlier, later) =>
      let (tmpBuf, data) ← swapRanges tmpBuf data earlier later
      return (.mutated, tmpBuf, data)

end

/-! ### What is exchanged -/

def slice (r : Range) : Bytes := (data.drop r.start).take r.len

variable (earlier later : Range)

/-- The bytes between two ranges. -/
def between : Bytes := slice data ⟨earlier.stop, later.start⟩

/-- The input with two ranges exchanged. -/
def exchange : Bytes :=
  data.take earlier.start ++ slice data later ++ between data earlier later ++ slice data earlier ++
    data.drop later.stop

/-- Two ranges, one after the other, neither of them empty. -/
structure Disjoint (size : ℕ) (earlier later : Range) : Prop where
  earlier_nonempty : earlier.start < earlier.stop
  ordered : earlier.stop ≤ later.start
  later_nonempty : later.start < later.stop
  within : later.stop ≤ size

/-- The bytes between the ranges, moved to the left, find the end of the earlier range as they are.
    It says nothing if the earlier range is not the longer one, or if nothing is between them. -/
def Harmless : Prop :=
  (between data earlier later).take (earlier.len - later.len) =
    ((slice data earlier).drop later.len).take (between data earlier later).length

instance (data : Bytes) (earlier later : Range) : Decidable (Harmless data earlier later) :=
  inferInstanceAs (Decidable (_ = _))

/-! ### The moves -/

theorem take_append_take_append_drop (n m : ℕ) :
    data.take n ++ (data.drop n).take m ++ data.drop (n + m) = data := by
  rw [append_assoc, ← drop_drop, take_append_drop, take_append_drop]

variable {source target len : ℕ}

theorem bufferSelfCopy_ok {data : Bytes} (hne : data ≠ []) (hsource : source + len ≤ data.length)
    (htarget : target + len ≤ data.length) :
    bufferSelfCopy data source target len = .ok (copy data data source target len) := by
  rw [bufferSelfCopy, if_pos ⟨hne, hsource, htarget⟩]
  congr 1
  split
  · rfl
  · next hnone =>
    -- nothing is moved, or everything to where it is
    rcases Decidable.not_and_iff_not_or_not.mp hnone with hlen | heq
    · rw [Decidable.not_not.mp hlen]
      simp [copy]
    · rw [Decidable.not_not.mp heq, copy, take_append_take_append_drop]

theorem bufferCopy_ok {dst src : Bytes} (hpos : 0 < len) (hsource : source + len ≤ src.length)
    (htarget : target + len ≤ dst.length) :
    bufferCopy dst src source target len = .ok (copy dst src source target len) := by
  have hdst : dst ≠ [] := ne_nil_of_length_pos (by omega)
  have hsrc : src ≠ [] := ne_nil_of_length_pos (by omega)
  rw [bufferCopy, if_pos ⟨hdst, hsrc, hsource, htarget⟩, if_pos (by omega)]

theorem copy_pieces (before covered after : Bytes) {src piece : Bytes}
    (htarget : target = before.length) (hlen : len = covered.length)
    (hpiece : (src.drop source).take len = piece) :
    copy (before ++ covered ++ after) src source target len = before ++ piece ++ after := by
  subst htarget hlen
  simp [copy, hpiece]

theorem bufferSelfCopy_pieces (covered : Bytes) {data first rest piece : Bytes}
    (hdata : data = first ++ covered ++ rest) (hne : data ≠ []) (htarget : target = first.length)
    (hlen : len = covered.length) (hsource : source + len ≤ data.length)
    (hpiece : (data.drop source).take len = piece) :
    bufferSelfCopy data source target len = .ok (first ++ piece ++ rest) := by
  rw [bufferSelfCopy_ok hne hsource (by rw [hdata]; simp only [length_append]; omega)]
  rw [← copy_pieces _ _ _ htarget hlen hpiece, ← hdata]

variable (earlier middle later : Bytes)

/-- The earlier range after the bytes between the ranges were moved to the left. -/
def clobbered : Bytes :=
  (earlier.take later.length ++ middle ++ earlier.drop (later.length + middle.length)).take
    earlier.length

theorem clobbered_of_le {earlier middle later : Bytes} (hle : earlier.length ≤ later.length) :
    clobbered earlier middle later = earlier := by
  rw [clobbered, take_of_length_le hle, append_assoc, take_left]

/-- The bytes behind the earlier range do not get into it. -/
theorem clobbered_eq :
    clobbered earlier middle later = ((earlier ++ middle ++ later).take later.length ++ middle ++
      (earlier ++ middle ++ later).drop (later.length + middle.length)).take earlier.length := by
  rcases Nat.le_total earlier.length later.length with hle | hlt
  · rw [clobbered_of_le hle, append_assoc, take_append_of_le_length (by simp; omega),
      take_take, Nat.min_eq_left hle, append_assoc, take_left]
  rw [clobbered, append_assoc earlier, take_append_of_le_length hlt, drop_append, ← append_assoc]
  refine (take_append_of_le_length ?_).symm
  simp only [length_append, length_take, length_drop]
  omega

/-- The earlier range survives exactly if what is moved over its end is the same. -/
theorem clobbered_eq_iff :
    clobbered earlier middle later = earlier ↔ middle.take (earlier.length - later.length) =
        (earlier.drop later.length).take middle.length := by
  rcases Nat.le_total earlier.length later.length with hle | hlt
  · simp [clobbered_of_le hle, Nat.sub_eq_zero_of_le hle, drop_eq_nil_of_le hle]
  obtain ⟨head, tail, rfl, hhead⟩ : ∃ head tail, earlier = head ++ tail ∧ head.length = later.length :=
    ⟨earlier.take later.length, earlier.drop later.length, (take_append_drop _ _).symm,
      length_take_of_le hlt⟩
  have htail : (head ++ tail).length - later.length = tail.length := by
    rw [length_append]
    omega
  rw [htail, clobbered, ← hhead, take_left, drop_left, ← drop_drop, drop_left,
    append_assoc, length_append, take_length_add_append, append_right_inj]
  rcases Nat.le_total middle.length tail.length with hm | hm
  · rw [take_append, take_of_length_le hm, take_of_length_le (by simp)]
    nth_rewrite 2 [← take_append_drop middle.length tail]
    rw [append_left_inj]
  · rw [drop_eq_nil_of_le hm, append_nil, take_of_length_le hm]

theorem resize_length (buf : Bytes) (len : ℕ) : (resize buf len).length = len := by
  simp only [resize, length_append, length_take, length_replicate]
  omega

section
variable {before earlier middle later after : Bytes} {e l : Range}

/-- The ranges `e` and `l` cut a buffer into these pieces. -/
structure Cut (before earlier middle later : Bytes) (e l : Range) : Prop where
  earlier_start : e.start = before.length
  earlier_stop : e.stop = before.length + earlier.length
  later_start : l.start = before.length + earlier.length + middle.length
  later_stop : l.stop = before.length + earlier.length + middle.length + later.length

namespace Cut
variable (h : Cut before earlier middle later e l) (hlater : later ≠ [])
include h

theorem earlier_len : e.len = earlier.length := by
  rw [Range.len, h.earlier_start, h.earlier_stop]
  omega

theorem later_len : l.len = later.length := by
  rw [Range.len, h.later_start, h.later_stop]
  omega

theorem middle_len : l.start - e.stop = middle.length := by
  rw [h.later_start, h.earlier_stop]
  omega

include hlater

theorem save_later (tmpBuf : Bytes) :
    bufferCopy (resize tmpBuf l.len) (before ++ earlier ++ middle ++ later ++ after) l.start 0 l.len =
      .ok later := by
  have hpos : 0 < later.length := length_pos_iff.mpr hlater
  have hsize := resize_length tmpBuf l.len
  rw [bufferCopy_ok]
  · have hpiece : ((before ++ earlier ++ middle ++ later ++ after).drop l.start).take l.len = later := by
      rw [h.later_start, h.later_len, append_assoc _ later, drop_left' (by simp [Nat.add_assoc]), take_left]
    have hcopy := copy_pieces [] (resize tmpBuf l.len) [] rfl hsize.symm hpiece
    simpa using hcopy
  · rw [h.later_len]
    exact hpos
  · simp only [h.later_start, h.later_len, length_append]
    omega
  · omega

theorem put_later (covered rest : Bytes) (hcovered : covered.length = later.length) :
    bufferCopy (before ++ covered ++ rest) later 0 e.start l.len =
      .ok (before ++ later ++ rest) := by
  have hpos : 0 < later.length := length_pos_iff.mpr hlater
  have hstart := h.earlier_start
  have hlen := h.later_len
  rw [bufferCopy_ok (by omega) (by omega) (by simp only [length_append]; omega),
    copy_pieces _ _ _ hstart (by omega) (by rw [hlen, drop_zero, take_length])]

/-- The bytes between the ranges are moved to where the later range will end. -/
theorem move_middle (htarget : target = before.length + later.length) :
    bufferSelfCopy (before ++ earlier ++ middle ++ later ++ after) e.stop target (l.start - e.stop) =
      .ok (before ++ (earlier ++ middle ++ later).take later.length ++ middle ++
        ((earlier ++ middle ++ later).drop (later.length + middle.length) ++ after)) := by
  have hstop := h.earlier_stop
  rw [h.middle_len]
  apply bufferSelfCopy_pieces (((earlier ++ middle ++ later).drop later.length).take middle.length)
  · conv_lhs => rw [append_assoc before, append_assoc before,
      ← take_append_take_append_drop (earlier ++ middle ++ later) later.length middle.length]
    simp only [append_assoc]
  · simp [hlater]
  · simp only [length_append, length_take]
    omega
  · simp only [length_take, length_drop, length_append]
    omega
  · simp only [length_append]
    omega
  · rw [append_assoc _ middle, append_assoc, drop_left' (by simpa using hstop.symm),
      append_assoc, take_left]

/-- What begins where the earlier range did is copied behind them. -/
theorem move_earlier (htarget : target = before.length + later.length + middle.length) :
    bufferSelfCopy (before ++ (earlier ++ middle ++ later).take later.length ++ middle ++
        ((earlier ++ middle ++ later).drop (later.length + middle.length) ++ after)) e.start target e.len =
      .ok (before ++ (earlier ++ middle ++ later).take later.length ++ middle ++
        clobbered earlier middle later ++ after) := by
  have hpos : 0 < later.length := length_pos_iff.mpr hlater
  rw [h.earlier_len, clobbered_eq]
  apply bufferSelfCopy_pieces ((earlier ++ middle ++ later).drop (later.length + middle.length))
  · simp only [append_assoc]
  · apply ne_nil_of_length_pos
    simp only [length_append, length_take]
    omega
  · simp only [length_append, length_take]
    omega
  · simp only [length_drop, length_append]
    omega
  · simp only [h.earlier_start, length_append, length_take, length_drop]
    omega
  · rw [append_assoc, append_assoc before, drop_left' h.earlier_start.symm,
      ← append_assoc, ← append_assoc, take_append_of_le_length]
    simp only [length_append, length_take, length_drop]
    omega

end Cut

/-- What the moves leave of the five pieces. The targets of the two branches are the same. -/
theorem swapRanges_eq (after : Bytes) (h : Cut before earlier middle later e l)
    (hlater : later ≠ []) (tmpBuf : Bytes) :
    swapRanges tmpBuf (before ++ earlier ++ middle ++ later ++ after) e l =
      .ok (later, before ++ later ++ middle ++ clobbered earlier middle later ++ after) := by
  have hstop := h.earlier_stop
  have hlstart := h.later_start
  have helen := h.earlier_len
  have hllen := h.later_len
  have hput := h.put_later hlater ((earlier ++ middle ++ later).take later.length)
    (middle ++ clobbered earlier middle later ++ after) (length_take_of_le (by simp; omega))
  simp only [← append_assoc] at hput
  simp only [swapRanges, h.save_later hlater, bind, Except.bind]
  split_ifs
  all_goals
    rw [h.move_middle hlater (by omega)]
    dsimp only
    rw [h.move_earlier hlater (by omega)]
    dsimp only
    rw [hput]
    rfl

end

/-! ### The ranges -/

section
variable {size : ℕ} {e l : Range} {data : Bytes}

theorem slice_length {r : Range} (h : r.stop ≤ data.length) : (slice data r).length = r.len := by
  rw [slice, length_take_of_le]
  rw [length_drop, Range.len]
  omega

theorem drop_eq_slice_append {a b : ℕ} (hab : a ≤ b) :
    data.drop a = slice data ⟨a, b⟩ ++ data.drop b := by
  have hb : b = a + (b - a) := by omega
  have hdrop : data.drop b = (data.drop a).drop (b - a) := by rw [drop_drop, ← hb]
  rw [slice, Range.len, hdrop, take_append_drop]

theorem pieces_append (h : Disjoint data.length e l) :
    data =
      data.take e.start ++ slice data e ++ between data e l ++ slice data l ++ data.drop l.stop := by
  obtain ⟨h1, h2, h3, -⟩ := h
  simp only [append_assoc]
  calc data = data.take e.start ++ data.drop e.start := (take_append_drop _ _).symm
    _ = data.take e.start ++ (slice data e ++ data.drop e.stop) := by
        rw [drop_eq_slice_append (show e.start ≤ e.stop by omega)]
    _ = data.take e.start ++ (slice data e ++ (between data e l ++ data.drop l.start)) := by
        rw [drop_eq_slice_append h2]
        rfl
    _ = _ := by rw [drop_eq_slice_append (show l.start ≤ l.stop by omega)]

theorem cut_of_disjoint (h : Disjoint data.length e l) :
    Cut (data.take e.start) (slice data e) (between data e l) (slice data l) e l := by
  obtain ⟨h1, h2, h3, h4⟩ := h
  have hbefore : (data.take e.start).length = e.start := length_take_of_le (by omega)
  have hearlier : (slice data e).length = e.stop - e.start := slice_length (by omega)
  have hmiddle : (between data e l).length = l.start - e.stop :=
    slice_length (r := ⟨e.stop, l.start⟩) (by simp only; omega)
  have hlater : (slice data l).length = l.stop - l.start := slice_length h4
  constructor <;> omega

theorem exchange_perm (h : Disjoint data.length e l) : (exchange data e l).Perm data := by
  conv_rhs => rw [pieces_append h]
  have hswap : (slice data l ++ between data e l ++ slice data e).Perm
      (slice data e ++ between data e l ++ slice data l) := by
    rw [append_assoc, append_assoc]
    refine perm_append_comm.trans ?_
    rw [append_assoc]
    refine perm_append_comm.trans ?_
    rw [append_assoc]
    exact perm_append_comm.append_left _ |>.trans (by rw [← append_assoc])
  have := (hswap.append_left (data.take e.start)).append_right (data.drop l.stop)
  simpa only [exchange, append_assoc] using this

end

section
variable {R : Type} [Rand R]

/-- A drawn range is not empty and within the bound. -/
theorem yields_randRange {upper maxLen : ℕ} (hupper : 0 < upper) (hmax : 0 < maxLen) :
    Yields (randRange upper maxLen : StateM R Range) fun r =>
      r.start < r.stop ∧ r.stop ≤ upper ∧ r.len ≤ maxLen := by
  refine (Yields.below hmax).bind fun len hlen => ?_
  refine (Yields.zeroUpto (by omega)).bind fun offset hoffset => Yields.pure ?_
  simp only [Range.len]
  split <;> omega

theorem yields_drawRanges {size : ℕ} (hsize : 0 < size) :
    Yields (drawRanges size : StateM R (Option (Range × Range)))
      fun ranges => ∀ e l, ranges = some (e, l) → Disjoint size e l := by
  refine (yields_randRange hsize hsize).bind ?_
  rintro first ⟨hfirst, hwithin, -⟩
  refine Yields.draw.bind fun coin _ => ?_
  split
  · next hbefore =>
    -- the second range comes before the first
    have hpos : 0 < first.start := Nat.pos_of_ne_zero hbefore.2
    refine (yields_randRange hpos hpos).bind ?_
    rintro second ⟨hsecond, hupper, -⟩
    refine Yields.pure fun e l heq => ?_
    cases heq
    exact ⟨hsecond, hupper, hfirst, hwithin⟩
  · split
    · next hafter =>
      have hpos : 0 < size - first.stop := by omega
      refine (yields_randRange hpos hpos).bind ?_
      rintro second ⟨hsecond, hupper, -⟩
      refine Yields.pure fun e l heq => ?_
      cases heq
      exact ⟨hfirst, Nat.le_add_left _ _, by simpa using hsecond, by simp only; omega⟩
    · exact Yields.pure fun e l heq => by cases heq

/-- `mutate` does what it is for: it skips, or it exchanges the ranges that it draws. -/
def Exchanges (rand : R) : MutationResult × Bytes → Prop
  | (.skipped, out) => (drawRanges data.length rand).1 = none ∧ out = data
  | (.mutated, out) =>
    ∃ e l, (drawRanges data.length rand).1 = some (e, l) ∧ Disjoint data.length e l ∧
      out = exchange data e l ∧ out.Perm data

/-- No assertion fails, and the ranges are exchanged exactly if the bytes between them do no
    harm. -/
theorem bytes_swap_iff (tmpBuf data : Bytes) (rand : R) (hsize : 2 ≤ data.length) :
    ∃ result tmpBuf' out, mutate tmpBuf data rand = .ok (result, tmpBuf', out) ∧
      (Exchanges data rand (result, out) ↔
        ∀ e l, (drawRanges data.length rand).1 = some (e, l) → Harmless data e l) := by
  cases hdraw : (drawRanges data.length rand).1 with
  | none =>
    refine ⟨.skipped, tmpBuf, data, ?_, by simp [Exchanges, hdraw]⟩
    simp only [mutate, if_neg (show ¬ data.length ≤ 1 by omega), hdraw]
    rfl
  | some ranges =>
    obtain ⟨e, l⟩ := ranges
    have hdisjoint := yields_drawRanges (by omega) rand e l hdraw
    have hcut := cut_of_disjoint hdisjoint
    have hlater : slice data l ≠ [] := by
      apply ne_nil_of_length_pos
      have := hdisjoint.later_nonempty
      rw [← hcut.later_len, Range.len]
      omega
    obtain ⟨kept, hkept⟩ : ∃ kept, clobbered (slice data e) (between data e l) (slice data l) = kept :=
      ⟨_, rfl⟩
    have hswap := swapRanges_eq (data.drop l.stop) hcut hlater tmpBuf
    rw [← pieces_append hdisjoint, hkept] at hswap
    refine ⟨.mutated, slice data l,
      data.take e.start ++ slice data l ++ between data e l ++ kept ++ data.drop l.stop, ?_, ?_⟩
    · simp only [mutate, if_neg (show ¬ data.length ≤ 1 by omega), hdraw, hswap]
      rfl
    · have hharmless : Harmless data e l ↔ kept = slice data e := by
        rw [← hkept, clobbered_eq_iff, Harmless, hcut.earlier_len, hcut.later_len]
      constructor
      · rintro ⟨e', l', hdraw', -, hout, -⟩ e'' l'' heq
        cases hdraw.symm.trans hdraw'
        cases heq
        rw [hharmless]
        -- the pieces around the earlier range are the same on both sides
        simpa [exchange] using hout
      · intro hall
        have hsame := hharmless.mp (hall e l rfl)
        subst hsame
        exact ⟨e, l, hdraw, hdisjoint, rfl, exchange_perm hdisjoint⟩

end

/-- Draws for the ranges `0..2` and `3..4` of four bytes. -/
def draws : List UInt64 := [0x4000000000000000, 0x6000000000000000, 0, 0, 0x8000000000000000]

/-- The byte between the ranges overwrites one that is equal to it. -/
theorem bytes_swap_four : ∃ result tmpBuf out,
    mutate [] [1, 3, 3, 4] draws = .ok (result, tmpBuf, out) ∧
      Exchanges [1, 3, 3, 4] draws (result, out) := by
  obtain ⟨result, tmpBuf, out, hrun, hiff⟩ := bytes_swap_iff [] [1, 3, 3, 4] draws (by decide)
  refine ⟨result, tmpBuf, out, hrun, hiff.mpr ?_⟩
  intro e l hdraw
  cases (show some (⟨0, 2⟩, ⟨3, 4⟩) = some (e, l) from hdraw)
  decide

/-- The first two of four bytes are exchanged with the last one, and a byte is lost. -/
theorem bytes_swap_loses_byte :
    (drawRanges 4 draws).1 = some (⟨0, 2⟩, ⟨3, 4⟩) ∧
      mutate [] [1, 2, 3, 4] draws = .ok (.mutated, [4], [4, 3, 1, 3]) ∧
      exchange [1, 2, 3, 4] ⟨0, 2⟩ ⟨3, 4⟩ = [4, 3, 1, 2] ∧
      ¬ Exchanges [1, 2, 3, 4] draws (.mutated, [4, 3, 1, 3]) := by
  refine ⟨by decide, by decide, by decide, ?_⟩
  rintro ⟨e, l, -, -, -, hperm⟩
  exact absurd hperm (by decide)

end Bofuzz.BytesSwap
