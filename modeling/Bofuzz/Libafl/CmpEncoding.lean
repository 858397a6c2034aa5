import Bofuzz.Libafl.OperandReplace

/-! Direct substitution of a logged integer operand (the pattern matching of `cmp_extend_encoding`
    in `libafl/src/mutators/token_mutations.rs`).

    Where both buffers hold the operand in big-endian order, the replacement is written over it byte
    by byte. Of eight bytes the upper four are shifted by one byte too little. -/

namespace Bofuzz.CmpEncoding
open BytesSwap OperandReplace List

/-- `uN::from_be_bytes`. -/
def fromBeBytes (bytes : Bytes) : ℕ := bytes.foldl (fun n b => 256 * n + b.toNat) 0

/-- `((x >> shift) & 0xff) as u8`. -/
def byteAt (x : UInt64) (shift : ℕ) : UInt8 := UInt8.ofNat (x.toNat / 2 ^ shift)

/-- The arguments that are read. -/
structure Cmp where
  pattern : UInt64
  repl : UInt64
  anotherPattern : UInt64
  anotherBuf : Bytes
  buf : Bytes
  bufIdx : ℕ
  taintLen : ℕ
  inputLen : ℕ
  hshape : ℕ

namespace Cmp

variable (a : Cmp)

/-- How many bytes are compared, none for the shape that never happens. -/
def width : ℕ :=
  if a.hshape = 0 then 0 else if a.hshape = 1 then 1 else if a.hshape ≤ 3 then 2
  else if a.hshape ≤ 7 then 4 else 8

def itsLen : ℕ := min (wrappingSub a.inputLen a.bufIdx) a.taintLen

/-- `buf[buf_idx..buf_idx + width]`. -/
def window (data : Bytes) (idx width : ℕ) : Except Panic Bytes :=
  if idx + width ≤ data.length then .ok ((data.drop idx).take width) else .error .bounds

/-- The bytes that are written, from `buf_idx` on. -/
def written : Bytes :=
  match a.width with
  | 1 => [byteAt a.repl 0]
  | 2 => [byteAt a.repl 8, byteAt a.repl 0]
  | 4 => [byteAt a.repl 24, byteAt a.repl 16, byteAt a.repl 8, byteAt a.repl 0]
  | 8 => [byteAt a.repl 48, byteAt a.repl 40, byteAt a.repl 32, byteAt a.repl 32, byteAt a.repl 24,
      byteAt a.repl 16, byteAt a.repl 8, byteAt a.repl 0]
  | _ => []

/-- The candidate that the match appends. A single byte is compared whatever the taint says. -/
def candidate : Except Panic (Option Bytes) := do
  if a.width = 0 ∨ a.width ≠ 1 ∧ a.itsLen < a.width then return none
  else
    let here ← window a.buf a.bufIdx a.width
    let there ← window a.anotherBuf a.bufIdx a.width
    if fromBeBytes here = a.pattern.toNat % 256 ^ a.width ∧
        fromBeBytes there = a.anotherPattern.toNat % 256 ^ a.width then
      return some (a.buf.take a.bufIdx ++ a.written ++ a.buf.drop (a.bufIdx + a.width))
    else return none

/-- The candidate is the buffer with the low bytes of `repl` where those of `pattern` were. -/
structure Substitutes (out : Bytes) : Prop where
  matched : ∃ bytes, window a.buf a.bufIdx a.width = .ok bytes ∧
    fromBeBytes bytes = a.pattern.toNat % 256 ^ a.width
  replaced : ∃ bytes, window out a.bufIdx a.width = .ok bytes ∧
    fromBeBytes bytes = a.repl.toNat % 256 ^ a.width
  before : out.take a.bufIdx = a.buf.take a.bufIdx
  after : out.drop (a.bufIdx + a.width) = a.buf.drop (a.bufIdx + a.width)

theorem width_cases : a.width = 0 ∨ a.width = 1 ∨ a.width = 2 ∨ a.width = 4 ∨ a.width = 8 := by
  unfold width
  split_ifs <;> simp

theorem width_eq_eight_iff : a.width = 8 ↔ 8 ≤ a.hshape := by
  unfold width
  split_ifs <;> simp <;> omega

theorem length_written : a.written.length = a.width := by
  rcases a.width_cases with h | h | h | h | h <;> simp [written, h]

theorem toNat_byteAt (x : UInt64) (shift : ℕ) :
    (byteAt x shift).toNat = x.toNat / 2 ^ shift % 256 := by
  simp [byteAt]

/-- The upper four bytes of the replacement are one and the same. -/
def Uniform (x : UInt64) : Prop :=
  byteAt x 32 = byteAt x 40 ∧ byteAt x 40 = byteAt x 48 ∧ byteAt x 48 = byteAt x 56

/-- A value of four bytes is not changed by a shift to the right that repeats the lowest one,
    exactly if its bytes are the same. -/
theorem shifted_eq_iff {b₀ b₁ b₂ b₃ : ℕ} (h₀ : b₀ < 256) (h₁ : b₁ < 256) (h₂ : b₂ < 256)
    (h₃ : b₃ < 256) :
    256 * (256 * (256 * b₂ + b₁) + b₀) + b₀ = 256 * (256 * (256 * b₃ + b₂) + b₁) + b₀ ↔
      b₀ = b₁ ∧ b₁ = b₂ ∧ b₂ = b₃ := by
  constructor
  · intro h
    have h₀₁ : b₀ = b₁ := by omega
    omega
  · omega

/-- What is written is the replacement, apart from the upper half of eight bytes. -/
theorem fromBeBytes_written :
    fromBeBytes a.written = a.repl.toNat % 256 ^ a.width ↔ (a.width = 8 → Uniform a.repl) := by
  have hlt := a.repl.toNat_lt
  rcases a.width_cases with h | h | h | h | h <;>
    simp only [written, h, fromBeBytes, foldl_cons, foldl_nil, toNat_byteAt, Uniform,
      ← UInt8.toNat_inj, Nat.reducePow, Nat.reduceEqDiff, false_implies, forall_const, iff_true]
  · omega
  · omega
  · omega
  · omega
  · generalize a.repl.toNat = x at hlt ⊢
    rw [← shifted_eq_iff (Nat.mod_lt _ (by decide)) (Nat.mod_lt _ (by decide)) (Nat.mod_lt _ (by decide))
      (Nat.mod_lt _ (by decide))]
    have hlow : 256 * (256 * (256 * (x / 16777216 % 256) + x / 65536 % 256) + x / 256 % 256) + x / 1 % 256 =
        x % 4294967296 := by omega
    have hall : x % 18446744073709551616 = 4294967296 * (256 * (256 * (256 * (x / 72057594037927936 % 256) +
        x / 281474976710656 % 256) + x / 1099511627776 % 256) + x / 4294967296 % 256) + x % 4294967296 := by
      omega
    omega

end Cmp

/-- Every candidate is the buffer with the replacement at the offset, exactly if fewer than eight
    bytes are compared or the upper four bytes of the replacement are the same. -/
theorem substitution_iff (a : Cmp) (out : Bytes) (h : a.candidate = .ok (some out)) :
    a.Substitutes out ↔ (8 ≤ a.hshape → Cmp.Uniform a.repl) := by
  rw [← a.width_eq_eight_iff, ← a.fromBeBytes_written]
  unfold Cmp.candidate at h
  split_ifs at h
  · cases h
  obtain ⟨here, hhere, h⟩ := Result.bind_eq_ok.mp h
  obtain ⟨there, -, h⟩ := Result.bind_eq_ok.mp h
  split_ifs at h with hmatch
  swap
  · cases h
  cases h
  have hfits : a.bufIdx + a.width ≤ a.buf.length := by
    unfold Cmp.window at hhere
    split_ifs at hhere with hfits
    exact hfits
  have hbefore : (a.buf.take a.bufIdx).length = a.bufIdx := length_take_of_le (by omega)
  have hlen := a.length_written
  have hwindow : Cmp.window (a.buf.take a.bufIdx ++ a.written ++ a.buf.drop (a.bufIdx + a.width)) a.bufIdx
      a.width = .ok a.written := by
    rw [Cmp.window, if_pos (by simp only [length_append]; omega), append_assoc,
      drop_left' hbefore, take_left' hlen]
  constructor
  · rintro ⟨-, ⟨bytes, hbytes, heq⟩, -, -⟩
    cases hwindow.symm.trans hbytes
    exact heq
  · intro heq
    refine ⟨⟨here, hhere, hmatch.1⟩, ⟨a.written, hwindow, heq⟩, ?_, ?_⟩
    · rw [append_assoc, take_left' hbefore]
    · rw [drop_left' (by rw [length_append]; omega)]

/-- A value of two bytes, in the middle of a buffer. -/
theorem substitution_two_bytes :
    Cmp.Substitutes ⟨0x102, 0x304, 0x506, [0, 5, 6, 0], [0, 1, 2, 0], 1, 2, 4, 2⟩ [0, 3, 4, 0] :=
  (substitution_iff ⟨0x102, 0x304, 0x506, [0, 5, 6, 0], [0, 1, 2, 0], 1, 2, 4, 2⟩ [0, 3, 4, 0]
    (by decide +kernel)).mpr fun h => absurd h (by decide)

def eightBytes : Cmp :=
  ⟨0, 0x0102030405060708, 1, [0, 0, 0, 0, 0, 0, 0, 1], List.replicate 8 0, 0, 8, 8, 8⟩

/-- The most significant byte is lost, and the fourth one is there twice. -/
theorem eight_bytes_shifted : eightBytes.candidate = .ok (some [2, 3, 4, 4, 5, 6, 7, 8]) ∧
    ¬ eightBytes.Substitutes [2, 3, 4, 4, 5, 6, 7, 8] := by
  refine ⟨by decide +kernel, ?_⟩
  rintro ⟨-, ⟨bytes, hbytes, heq⟩, -, -⟩
  cases hbytes
  exact absurd heq (by decide +kernel)

end Bofuzz.CmpEncoding
