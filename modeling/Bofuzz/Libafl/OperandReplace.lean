import Bofuzz.Libafl.InsertMutators

/-! Replacing a logged byte operand by the other one (`libafl/src/mutators/token_mutations.rs`).

    The mutators look for a prefix of one operand in the input and copy as many bytes from the other
    operand over it. The number of bytes is that of the match; nothing compares it with the length
    of the operand that is copied. -/

namespace Bofuzz.OperandReplace
open BytesSwap InsertMutators List

/-! ### The search of `I2SRandReplace` -/

/-- The `while` loop: the longest prefix of `v`, of at most the given length, that stands at `i`. -/
def matchLen (v data : Bytes) (i : ℕ) : ℕ → Option ℕ
  | 0 => none
  | size + 1 =>
    if v.take (size + 1) = (data.drop i).take (size + 1) then some (size + 1)
    else matchLen v data i size

/-- A match: where it is, how long, and which operand replaces which. -/
structure Match where
  pos : ℕ
  size : ℕ
  replaced : Bytes
  replacing : Bytes

/-- One round of the outer loop. -/
def matchAt (v0 v1 data : Bytes) (i : ℕ) : Option Match :=
  match matchLen v0 data i (min v0.length (data.length - i)) with
  | some size => some ⟨i, size, v0, v1⟩
  | none => (matchLen v1 data i (min v1.length (data.length - i))).map fun size => ⟨i, size, v1, v0⟩

/-- The outer loop up to its `break`. -/
def firstMatch (v0 v1 data : Bytes) (off : ℕ) : Option Match :=
  (List.range' off (data.length - off)).findSome? (matchAt v0 v1 data)

/-- The case `CmpValues::Bytes` of the mutators, for an offset that was drawn. -/
def replaceBytes (v0 v1 data : Bytes) (off : ℕ) : Except Error (MutationResult × Bytes) := do
  match firstMatch v0 v1 data off with
  | none => return (.skipped, data)
  | some m =>
    let data ← asserted (bufferCopy data m.replacing 0 m.pos m.size)
    return (.mutated, data)

/-- The case in `I2SRandReplace::mutate`. -/
def i2sRandReplace (v0 v1 data : Bytes) (off : ℕ) : Except Error (MutationResult × Bytes) :=
  replaceBytes v0 v1 data off

/-- The case in `I2SRandReplaceBinonly::mutate`. -/
def i2sRandReplaceBinonly (v0 v1 data : Bytes) (off : ℕ) : Except Error (MutationResult × Bytes) :=
  replaceBytes v0 v1 data off

/-! ### `rtn_extend_encoding` -/

/-- `wrapping_sub` of two `usize`. -/
def wrappingSub (a b : ℕ) : ℕ := (a + (2 ^ 64 - b)) % 2 ^ 64

variable (pattern buf : Bytes)

/-- Whether the pattern reaches as far as `i` and differs from the buffer there. -/
def differs (bufIdx i : ℕ) : Except Error Bool :=
  match pattern[i]?, buf[bufIdx + i]? with
  | none, _ => .ok false
  | some _, none => .error .indexPanic
  | some p, some b => .ok (p ≠ b)

/-- The arguments of `rtn_extend_encoding` that are read. -/
structure Rtn where
  pattern : Bytes
  repl : Bytes
  oPattern : Bytes
  oBuf : Bytes
  buf : Bytes
  bufIdx : ℕ
  taintLen : ℕ
  inputLen : ℕ
  hshape : ℕ

namespace Rtn

def itsLen (a : Rtn) : ℕ :=
  min (min (wrappingSub a.inputLen a.bufIdx) a.taintLen)
    (min (max a.pattern.length a.oPattern.length) a.hshape)

/-- The loop that counts `copy_len`, with the number of rounds that are left. -/
def count (a : Rtn) : ℕ → ℕ → Except Error ℕ
  | 0, copyLen => .ok copyLen
  | rounds + 1, copyLen => do
    let b1 ← differs a.pattern a.buf a.bufIdx copyLen
    let b2 ← differs a.oPattern a.oBuf a.bufIdx copyLen
    if b1 ∨ b2 then return copyLen
    else count a rounds (copyLen + 1)

def copyLen (a : Rtn) : Except Error ℕ := a.count a.itsLen 0

/-- `rtn_extend_encoding`: whether it found something, and what it pushed. -/
def extendEncoding (a : Rtn) : Except Error (Bool × List Bytes) := do
  let copyLen ← a.copyLen
  if 0 < copyLen then
    let pushed ← (List.range' 1 copyLen).mapM fun l => asserted (bufferCopy a.buf a.repl 0 a.bufIdx l)
    return (true, pushed)
  else return (false, [])

end Rtn

/-! ### Windows -/

/-- The bytes of a window are the beginning of an operand. -/
structure Window (operand data : Bytes) (pos size : ℕ) : Prop where
  nonempty : 0 < size
  within : pos + size ≤ data.length
  bounded : size ≤ operand.length
  equal : (data.drop pos).take size = operand.take size

/-- A window that shows one operand is overwritten with as many bytes of the other, all of which it
    has. -/
structure Overwrites (data replaced replacing : Bytes) (pos size : ℕ) (out : Bytes) : Prop where
  window : Window replaced data pos size
  supplied : size ≤ replacing.length
  rest_kept : out = data.take pos ++ replacing.take size ++ data.drop (pos + size)

variable {v v0 v1 data : Bytes} {i k n size off : ℕ} {m : Match}

theorem matchLen_spec (h : matchLen v data i n = some size) :
    0 < size ∧ size ≤ n ∧ (data.drop i).take size = v.take size := by
  induction n with
  | zero => cases h
  | succ n ih =>
    rw [matchLen] at h
    split at h
    · next heq =>
      cases h
      exact ⟨Nat.succ_pos n, le_refl _, heq.symm⟩
    · obtain ⟨hpos, hle, heq⟩ := ih h
      exact ⟨hpos, Nat.le_succ_of_le hle, heq⟩

theorem matchLen_window (h : matchLen v data i (min v.length (data.length - i)) = some size) :
    Window v data i size := by
  obtain ⟨hpos, hle, heq⟩ := matchLen_spec h
  exact ⟨hpos, by omega, by omega, heq⟩

theorem Window.shorter (h : Window v data i size) (hpos : 0 < k) (hle : k ≤ size) :
    Window v data i k := by
  have := h.within
  have := h.bounded
  refine ⟨hpos, by omega, by omega, ?_⟩
  have hequal := congrArg (take k) h.equal
  rwa [take_take, take_take, min_eq_left hle] at hequal

theorem Window.one (h : Window v data i size) : Window v data i 1 :=
  h.shorter Nat.one_pos h.nonempty

/-- The loop finds a match that is no shorter than any window at the place. -/
theorem exists_matchLen (h : Window v data i k) (hk : k ≤ n) :
    ∃ size, matchLen v data i n = some size ∧ k ≤ size := by
  induction n with
  | zero => exact absurd h.nonempty (by omega)
  | succ n ih =>
    rw [matchLen]
    split
    · exact ⟨n + 1, rfl, hk⟩
    · next hne =>
      have hlt : k ≠ n + 1 := fun heq => hne (heq ▸ h.equal.symm)
      exact ih (by omega)

theorem matchLen_of_window (h : Window v data i k) :
    ∃ size, matchLen v data i (min v.length (data.length - i)) = some size ∧ k ≤ size := by
  have := h.within
  have := h.bounded
  exact exists_matchLen h (by omega)

/-- The match is too long for the other operand just if a longer window than that operand is
    there. -/
theorem matchLen_le_iff : (∀ size, matchLen v data i (min v.length (data.length - i)) = some size →
    size ≤ k) ↔ ¬ Window v data i (k + 1) := by
  constructor
  · intro hle hwindow
    obtain ⟨size, hsize, hlt⟩ := matchLen_of_window hwindow
    have := hle size hsize
    omega
  · intro hno size hsize
    by_contra hlt
    exact hno ((matchLen_window hsize).shorter (Nat.succ_pos k) (by omega))

theorem matchLen_eq_none :
    matchLen v data i (min v.length (data.length - i)) = none ↔ ¬ Window v data i 1 := by
  rw [Option.eq_none_iff_forall_ne_some, ← Nat.zero_add 1, ← matchLen_le_iff]
  refine forall₂_congr fun size hsize => iff_of_false id ?_
  exact Nat.not_le.mpr (matchLen_window hsize).nonempty

/-- What is found is a window on one of the operands, to be replaced by the other. -/
theorem firstMatch_window (h : firstMatch v0 v1 data off = some m) :
    Window m.replaced data m.pos m.size ∧
      (m.replaced = v0 ∧ m.replacing = v1 ∨ m.replaced = v1 ∧ m.replacing = v0) := by
  obtain ⟨i, -, hat⟩ := exists_of_findSome?_eq_some h
  unfold matchAt at hat
  split at hat
  · next size hsize =>
    cases hat
    exact ⟨matchLen_window hsize, .inl ⟨rfl, rfl⟩⟩
  · obtain ⟨size, hsize, rfl⟩ := Option.map_eq_some_iff.mp hat
    exact ⟨matchLen_window hsize, .inr ⟨rfl, rfl⟩⟩

/-- Copying over a window fails exactly if the other operand is too short. -/
theorem bufferCopy_window (h : Window v data i size) (replacing : Bytes) :
    asserted (bufferCopy data replacing 0 i size) =
      if size ≤ replacing.length then .ok (data.take i ++ replacing.take size ++ data.drop (i + size))
      else .error .assertPanic := by
  split
  · next hle =>
    rw [bufferCopy_ok h.nonempty (by omega) h.within, copy, drop_zero]
    rfl
  · next hlt =>
    rw [bufferCopy, if_neg fun hok => hlt (by omega)]
    rfl

/-! ### What the mutators leave -/

/-- The input is skipped, or a window on one operand is overwritten with the other one. -/
def Replaces (v0 v1 data : Bytes) (out : Except Error (MutationResult × Bytes)) : Prop :=
  out = .ok (.skipped, data) ∨ ∃ pos size bytes, out = .ok (.mutated, bytes) ∧
    (Overwrites data v0 v1 pos size bytes ∨ Overwrites data v1 v0 pos size bytes)

/-- No place before `i` shows the first byte of an operand. -/
def FirstAt (v0 v1 data : Bytes) (off i : ℕ) : Prop :=
  off ≤ i ∧ ∀ j, off ≤ j → j < i → ¬ Window v0 data j 1 ∧ ¬ Window v1 data j 1

/-- At the first place that shows the first byte of an operand, the first one if it shows both, the
    input has no more bytes of this operand than there are in the other one. -/
def Supplied (v0 v1 data : Bytes) (off : ℕ) : Prop :=
  ∀ i, FirstAt v0 v1 data off i → ¬ Window v0 data i (v1.length + 1) ∧
    (¬ Window v0 data i 1 → ¬ Window v1 data i (v0.length + 1))

theorem matchAt_eq_none :
    matchAt v0 v1 data i = none ↔ ¬ Window v0 data i 1 ∧ ¬ Window v1 data i 1 := by
  rw [← matchLen_eq_none, ← matchLen_eq_none, matchAt]
  split
  · next h => simp [h]
  · next h => simp [h]

theorem matchAt_le_iff (h : matchAt v0 v1 data i = some m) :
    m.size ≤ m.replacing.length ↔ ¬ Window v0 data i (v1.length + 1) ∧
      (¬ Window v0 data i 1 → ¬ Window v1 data i (v0.length + 1)) := by
  unfold matchAt at h
  split at h
  · next size hsize =>
    cases h
    rw [← matchLen_le_iff, hsize]
    simp [(matchLen_window hsize).one]
  · next hnone =>
    obtain ⟨size, hsize, rfl⟩ := Option.map_eq_some_iff.mp h
    have hno := matchLen_eq_none.mp hnone
    have hlong : ¬ Window v0 data i (v1.length + 1) := fun hwindow => hno hwindow.one
    rw [← matchLen_le_iff (v := v1), hsize]
    simp [hno, hlong]

/-- The first match is at the first place that shows an operand. -/
theorem firstMatch_le_iff :
    (∀ m, firstMatch v0 v1 data off = some m → m.size ≤ m.replacing.length) ↔
      Supplied v0 v1 data off := by
  unfold firstMatch
  induction hn : data.length - off generalizing off with
  | zero =>
    refine iff_of_true (fun m hm => by cases hm) fun i hi => ?_
    have hout : ∀ v k, ¬ Window v data i (k + 1) := fun v k h => by
      have := h.within
      have := hi.1
      omega
    exact ⟨hout _ _, fun _ => hout _ _⟩
  | succ n ih =>
    rw [range'_succ, findSome?_cons]
    have here : FirstAt v0 v1 data off off := ⟨le_refl _, fun j hle hlt => absurd hle (by omega)⟩
    cases hat : matchAt v0 v1 data off with
    | some m =>
      simp only [Option.some.injEq, forall_eq', matchAt_le_iff hat]
      refine ⟨fun h i hi => ?_, fun h => h off here⟩
      -- no later place comes first
      obtain rfl : off = i := by
        by_contra hne
        have hnone := matchAt_eq_none.mpr (hi.2 off (le_refl _) (lt_of_le_of_ne hi.1 hne))
        rw [hat] at hnone
        cases hnone
      exact h
    | none =>
      have hno := matchAt_eq_none.mp hat
      refine (ih (by omega)).trans ⟨fun h i hi => ?_, fun h i hi => h i ⟨?_, ?_⟩⟩
      · rcases Nat.eq_or_lt_of_le hi.1 with rfl | hlt
        · exact ⟨fun hlong => hno.1 hlong.one, fun _ hlong => hno.2 hlong.one⟩
        · exact h i ⟨hlt, fun j hle => hi.2 j (by omega)⟩
      · have := hi.1
        omega
      · intro j hle hlt
        rcases Nat.eq_or_lt_of_le hle with rfl | hlt'
        · exact hno
        · exact hi.2 j hlt' hlt

theorem replaceBytes_iff (v0 v1 data : Bytes) (off : ℕ) :
    Replaces v0 v1 data (replaceBytes v0 v1 data off) ↔
      ∀ m, firstMatch v0 v1 data off = some m → m.size ≤ m.replacing.length := by
  rw [replaceBytes]
  cases hfound : firstMatch v0 v1 data off with
  | none => exact iff_of_true (.inl rfl) fun m hm => by cases hm
  | some m =>
    obtain ⟨hwindow, hoperands⟩ := firstMatch_window hfound
    simp only [bufferCopy_window hwindow, Option.some.injEq, forall_eq']
    split
    · next hle =>
      refine iff_of_true (.inr ⟨m.pos, m.size, _, rfl, ?_⟩) hle
      rcases hoperands with ⟨h0, h1⟩ | ⟨h1, h0⟩
      · exact .inl ⟨h0 ▸ hwindow, h1 ▸ hle, by rw [h1]⟩
      · exact .inr ⟨h1 ▸ hwindow, h0 ▸ hle, by rw [h0]⟩
    · next hlt =>
      refine iff_of_false ?_ hlt
      rintro (h | ⟨_, _, _, h, _⟩) <;> cases h

namespace Rtn
variable {a : Rtn}

/-- The buffer shows byte `i` of the pattern, as far as the pattern reaches. -/
def Shows (bufIdx i : ℕ) : Prop :=
  i < pattern.length → buf[bufIdx + i]? = pattern[i]?

/-- The buffer has a byte to compare with byte `i` of the pattern. -/
def Compares (bufIdx i : ℕ) : Prop :=
  i < pattern.length → bufIdx + i < buf.length

/-- Both buffers show byte `i` of their pattern. -/
def Agrees (a : Rtn) (i : ℕ) : Prop :=
  Shows a.pattern a.buf a.bufIdx i ∧ Shows a.oPattern a.oBuf a.bufIdx i

/-- The bytes that are compared at `i` are there, and a pair of them differs. -/
def Differs (a : Rtn) (i : ℕ) : Prop :=
  Compares a.pattern a.buf a.bufIdx i ∧ Compares a.oPattern a.oBuf a.bufIdx i ∧ ¬ a.Agrees i

theorem differs_cases (bufIdx i : ℕ) :
    Compares pattern buf bufIdx i ∧ (∃ b, differs pattern buf bufIdx i = .ok b ∧
      (b = false ↔ Shows pattern buf bufIdx i)) ∨
    ¬ Compares pattern buf bufIdx i ∧ ¬ Shows pattern buf bufIdx i ∧
      differs pattern buf bufIdx i = .error .indexPanic := by
  unfold differs Compares Shows
  rcases Nat.lt_or_ge i pattern.length with hi | hi
  · rcases Nat.lt_or_ge (bufIdx + i) buf.length with hb | hb
    · simp [hi, hb, @eq_comm _ (buf[bufIdx + i]), em]
    · simp [hi, hb]
  · simp [hi]

/-- A round of the count: it goes on, ends or fails. -/
theorem count_succ (a : Rtn) (rounds i : ℕ) :
    a.Agrees i ∧ a.count (rounds + 1) i = a.count rounds (i + 1) ∨
      a.Differs i ∧ a.count (rounds + 1) i = .ok i ∨
      ¬ a.Agrees i ∧ ¬ a.Differs i ∧ a.count (rounds + 1) i = .error .indexPanic := by
  rw [count, Differs, Agrees]
  rcases differs_cases a.pattern a.buf a.bufIdx i with ⟨h1, b1, e1, hb1⟩ | ⟨h1, hb1, e1⟩
  · rcases differs_cases a.oPattern a.oBuf a.bufIdx i with ⟨h2, b2, e2, hb2⟩ | ⟨h2, hb2, e2⟩
    · cases b1 <;> cases b2 <;> simp_all [bind, Except.bind, pure, Except.pure]
    · simp [h1, h2, hb2, e1, e2, bind, Except.bind]
  · simp [h1, hb1, e1, bind, Except.bind]

/-- The count goes on while the patterns agree with the buffers, and ends at the first
    difference. -/
theorem count_eq_ok {rounds start n : ℕ} : a.count rounds start = .ok n ↔
    start ≤ n ∧ n ≤ start + rounds ∧ (∀ i, start ≤ i → i < n → a.Agrees i) ∧
      (n < start + rounds → a.Differs n) := by
  induction rounds generalizing start with
  | zero =>
    rw [count, Except.ok.injEq]
    constructor
    · rintro rfl
      exact ⟨le_refl _, le_refl _, fun i hle hlt => absurd hlt (by omega), fun h => absurd h (by omega)⟩
    · rintro ⟨hle, hge, -, -⟩
      omega
  | succ rounds ih =>
    rcases a.count_succ rounds start with ⟨hagree, heq⟩ | ⟨hdiffer, heq⟩ | ⟨hagree, hdiffer, heq⟩
    · rw [heq, ih]
      constructor
      · rintro ⟨hle, hbound, hall, hstop⟩
        refine ⟨by omega, by omega, fun i hi hlt => ?_, fun hlt => hstop (by omega)⟩
        rcases Nat.eq_or_lt_of_le hi with rfl | hi
        · exact hagree
        · exact hall i hi hlt
      · rintro ⟨hle, hbound, hall, hstop⟩
        have hne : start ≠ n := fun h => (hstop (by omega)).2.2 (h ▸ hagree)
        exact ⟨by omega, by omega, fun i hi => hall i (by omega), fun h => hstop (by omega)⟩
    · rw [heq, Except.ok.injEq]
      constructor
      · rintro rfl
        exact ⟨le_refl _, by omega, fun i hle hlt => absurd hlt (by omega), fun _ => hdiffer⟩
      · rintro ⟨hle, -, hall, -⟩
        by_contra hne
        exact hdiffer.2.2 (hall start (le_refl _) (by omega))
    · rw [heq]
      refine iff_of_false nofun ?_
      rintro ⟨hle, -, hall, hstop⟩
      rcases Nat.eq_or_lt_of_le hle with rfl | hlt
      · exact hdiffer (hstop (by omega))
      · exact hagree (hall start (le_refl _) hlt)

theorem count_error {rounds start : ℕ} {e : Error} (h : a.count rounds start = .error e) :
    e = .indexPanic := by
  induction rounds generalizing start with
  | zero => cases h
  | succ rounds ih =>
    rcases a.count_succ rounds start with ⟨-, heq⟩ | ⟨-, heq⟩ | ⟨-, -, heq⟩
    · exact ih (heq.symm.trans h)
    · cases heq.symm.trans h
    · cases heq.symm.trans h
      rfl

/-- What was counted shows the pattern, if the pattern is long enough. -/
theorem copyLen_window {n l : ℕ} (h : a.copyLen = .ok n) (hpattern : n ≤ a.pattern.length)
    (hpos : 0 < l) (hl : l ≤ n) : Window a.pattern a.buf a.bufIdx l := by
  obtain ⟨-, -, hagree, -⟩ := count_eq_ok.mp h
  have hbyte : ∀ i < l, a.buf[a.bufIdx + i]? = a.pattern[i]? :=
    fun i hi => (hagree i (Nat.zero_le _) (by omega)).1 (by omega)
  refine ⟨hpos, ?_, by omega, ?_⟩
  · -- the last of the bytes stands in the buffer
    have hlast := hbyte (l - 1) (by omega)
    rw [getElem?_eq_getElem (by omega : l - 1 < a.pattern.length)] at hlast
    obtain ⟨hlt, -⟩ := List.getElem?_eq_some_iff.mp hlast
    omega
  · apply ext_getElem?
    intro i
    rw [getElem?_take, getElem?_take, getElem?_drop]
    split
    · next hi => exact hbyte i hi
    · rfl

/-- No assertion fails, and each thing pushed is the buffer with a window on the pattern
    overwritten, longer by one byte each time. -/
def Proper (a : Rtn) (out : Except Error (Bool × List Bytes)) : Prop :=
  out ≠ .error .assertPanic ∧ ∀ found pushed, out = .ok (found, pushed) →
    ∀ k bytes, pushed[k]? = some bytes → Overwrites a.buf a.pattern a.repl a.bufIdx (k + 1) bytes

theorem asserted_error {α : Type} {x : Except Panic α} {e : Error} (h : asserted x = .error e) :
    e = .assertPanic := by
  cases x with
  | ok => cases h
  | error =>
    cases h
    rfl

theorem pushed_spec {n : ℕ} {pushed : List Bytes}
    (h : (range' 1 n).mapM (fun l => asserted (bufferCopy a.buf a.repl 0 a.bufIdx l)) = .ok pushed) :
    pushed.length = n ∧ ∀ k bytes, pushed[k]? = some bytes →
      k < n ∧ asserted (bufferCopy a.buf a.repl 0 a.bufIdx (k + 1)) = .ok bytes := by
  have hall := Result.mapM_eq_ok.mp h
  have hlen : pushed.length = n := by rw [← hall.length_eq, length_range']
  refine ⟨hlen, fun k bytes hk => ?_⟩
  obtain ⟨hlt, rfl⟩ := List.getElem?_eq_some_iff.mp hk
  have hcopy := hall.get (by rw [length_range']; omega) hlt
  rw [get_eq_getElem, getElem_range', Nat.one_mul, Nat.add_comm] at hcopy
  exact ⟨by omega, hcopy⟩

theorem extendEncoding_iff (a : Rtn) : a.Proper a.extendEncoding ↔
    ∀ n, a.copyLen = .ok n → n ≤ a.pattern.length ∧ n ≤ a.repl.length := by
  rw [extendEncoding]
  cases hcopy : a.copyLen with
  | error e =>
    refine iff_of_true ⟨?_, fun _ _ h => by cases h⟩ fun n h => by cases h
    rw [count_error hcopy]
    exact fun h => by cases h
  | ok n =>
    simp only [Except.ok.injEq, forall_eq']
    rcases Nat.eq_zero_or_pos n with rfl | hpos
    · refine iff_of_true ⟨fun h => (by cases h), ?_⟩ ⟨Nat.zero_le _, Nat.zero_le _⟩
      rintro found pushed ⟨⟩ k bytes hk
      cases hk
    simp only [bind, Except.bind, if_pos hpos]
    cases hmap : (range' 1 n).mapM fun l => asserted (bufferCopy a.buf a.repl 0 a.bufIdx l) with
    | error e =>
      obtain ⟨l, hmem, herror⟩ := Result.exists_of_mapM_eq_error hmap
      obtain rfl := asserted_error herror
      refine iff_of_false (fun h => h.1 rfl) ?_
      rintro ⟨hpattern, hrepl⟩
      obtain ⟨k, hk, rfl⟩ := mem_range'.mp hmem
      rw [bufferCopy_window (copyLen_window hcopy hpattern (by omega) (by omega)), if_pos (by omega)] at herror
      cases herror
    | ok pushed =>
      obtain ⟨hlen, hpushed⟩ := pushed_spec hmap
      constructor
      · rintro ⟨-, hproper⟩
        have hlast : n - 1 < pushed.length := by omega
        have hover := hproper true pushed rfl (n - 1) _ (getElem?_eq_getElem hlast)
        have hbounded := hover.window.bounded
        have hsupplied := hover.supplied
        omega
      · rintro ⟨hpattern, hrepl⟩
        refine ⟨fun h => (by cases h), ?_⟩
        rintro found pushed' ⟨⟩ k bytes hk
        obtain ⟨hlt, hok⟩ := hpushed k bytes hk
        have hwindow := copyLen_window hcopy hpattern (Nat.succ_pos k) hlt
        rw [bufferCopy_window hwindow, if_pos (by omega)] at hok
        exact ⟨hwindow, by omega, (Except.ok.inj hok).symm⟩

end Rtn

/-! Operands of one length are never too short for each other. -/

theorem replaces_of_length_eq {v0 v1 : Bytes} (hlen : v0.length = v1.length) (data : Bytes)
    (off : ℕ) :
    Replaces v0 v1 data (replaceBytes v0 v1 data off) := by
  rw [replaceBytes_iff]
  intro m hm
  obtain ⟨hwindow, ⟨h0, h1⟩ | ⟨h1, h0⟩⟩ := firstMatch_window hm
  · rw [h1, ← hlen, ← h0]
    exact hwindow.bounded
  · rw [h0, hlen, ← h1]
    exact hwindow.bounded

theorem replaces_two_bytes :
    Replaces [1, 2] [8, 9] [1, 2, 3] (replaceBytes [1, 2] [8, 9] [1, 2, 3] 0) :=
  replaces_of_length_eq (by rfl) [1, 2, 3] 0

theorem Rtn.proper_of_length_eq {a : Rtn} (hrepl : a.repl.length = a.pattern.length)
    (hoPattern : a.oPattern.length = a.pattern.length) : a.Proper a.extendEncoding := by
  rw [extendEncoding_iff]
  intro n hn
  have hle : n ≤ 0 + a.itsLen := (count_eq_ok.mp hn).2.1
  rw [itsLen] at hle
  omega

theorem Rtn.proper_two_bytes : Rtn.Proper ⟨[1, 2], [8, 9], [1, 2], [1, 2], [1, 5], 0, 2, 2, 32⟩
    (Rtn.extendEncoding ⟨[1, 2], [8, 9], [1, 2], [1, 2], [1, 5], 0, 2, 2, 32⟩) :=
  proper_of_length_eq rfl rfl

/-- For the third search: as far as the patterns agree with the buffers, and no further than where
    they are seen to differ or the count may go, both the pattern and its replacement reach. -/
def Rtn.Reaches (a : Rtn) : Prop :=
  ∀ n ≤ a.itsLen, (∀ i < n, a.Agrees i) → (n < a.itsLen → a.Differs n) →
    n ≤ a.pattern.length ∧ n ≤ a.repl.length

theorem Rtn.copyLen_le_iff {a : Rtn} :
    (∀ n, a.copyLen = .ok n → n ≤ a.pattern.length ∧ n ≤ a.repl.length) ↔ a.Reaches := by
  simp [Rtn.Reaches, Rtn.copyLen, Rtn.count_eq_ok]

/-- The three searches for every input and every pair of operands: no assertion fails and only a
    window on an operand is overwritten, exactly if the operand that is copied reaches as far as the
    other one is found in the input, and for the third search the pattern reaches so far too. -/
theorem operand_replacement_iff (v0 v1 data : Bytes) (off : ℕ) (a : Rtn) :
    (Replaces v0 v1 data (i2sRandReplace v0 v1 data off) ↔ Supplied v0 v1 data off) ∧
    (Replaces v0 v1 data (i2sRandReplaceBinonly v0 v1 data off) ↔ Supplied v0 v1 data off) ∧
    (a.Proper a.extendEncoding ↔ a.Reaches) := by
  have hi2s := (replaceBytes_iff v0 v1 data off).trans firstMatch_le_iff
  exact ⟨hi2s, hi2s, a.extendEncoding_iff.trans Rtn.copyLen_le_iff⟩

/-- Two bytes match the first operand and the second one has a single byte; and a routine whose
    second run logged a longer operand than the first. -/
theorem shorter_operand_fails_assertion :
    i2sRandReplace [1, 2] [9] [1, 2, 3] 0 = .error .assertPanic ∧
      i2sRandReplaceBinonly [1, 2] [9] [1, 2, 3] 0 = .error .assertPanic ∧
      Rtn.extendEncoding ⟨[1], [9], [1, 2], [1, 2], [1, 5], 0, 2, 2, 32⟩ = .error .assertPanic := by
  decide +kernel

end Bofuzz.OperandReplace
