import Bofuzz.Lib.Run

/-! The hit-count observer (`libafl/src/observers/map/hitcount_map.rs`).

    After an execution every byte of the map is replaced by its class. The iterable observer does so
    byte by byte; the one for slices goes over the map in 16-bit words from the first aligned
    address on, with a table of all words, and classifies the bytes outside the words apart. -/

namespace Bofuzz.HitcountsMap
open List

/-! ### Classes -/

/-- `COUNT_CLASS_LOOKUP`. -/
def countClassLookup : List UInt8 :=
  [0, 1, 2, 4] ++ List.replicate 4 8 ++ List.replicate 8 16 ++ List.replicate 16 32 ++
    List.replicate 96 64 ++ List.replicate 128 128

/-- The class of a byte. The table has an entry for every byte. -/
def classify (b : UInt8) : UInt8 := countClassLookup.getD b.toNat 0

example : countClassLookup.length = 256 := by decide +kernel

/-- Two bytes as a 16-bit number. -/
def join (high low : UInt8) : UInt16 := (high.toUInt16 <<< 8) ||| low.toUInt16

/-- `init_count_class_16`. -/
def initCountClass16 : List UInt16 :=
  (List.range 256).foldl (fun table i =>
    (List.range 256).foldl (fun table j =>
      table.set ((i <<< 8) + j) (join (countClassLookup.getD i 0) (countClassLookup.getD j 0))) table)
    (List.replicate 65536 0)

/-! ### The observers -/

/-- The order in which the machine keeps the bytes of a word. -/
inductive Endian where | little | big

variable (endian : Endian)

/-- The word at two bytes of memory. -/
def Endian.read (first second : UInt8) : UInt16 :=
  match endian with
  | .little => join second first
  | .big => join first second

/-- The two bytes of memory that a word leaves. -/
def Endian.write (word : UInt16) : List UInt8 :=
  match endian with
  | .little => [word.toUInt8, (word >>> 8).toUInt8]
  | .big => [(word >>> 8).toUInt8, word.toUInt8]

/-- The loop over `cnt` words. -/
def classifyWords : ℕ → List UInt8 → List UInt8
  | cnt + 1, first :: second :: rest =>
    endian.write (initCountClass16.getD (endian.read first second).toNat 0) ++ classifyWords cnt rest
  | _, bytes => bytes

/-- `post_exec` from `len` on, which does not count a first byte that has been classified
    already. -/
def classifyRest (alignOffset len : ℕ) (map : List UInt8) : List UInt8 :=
  -- fix the last element
  let map := if len % 2 ≠ 0 then map.modify (len - 1) classify else map
  map.take alignOffset ++ classifyWords endian (len / 2) (map.drop alignOffset)

/-- `HitcountsMapObserver::post_exec`; `misaligned` says that the map starts at an odd address. -/
def postExec (misaligned : Bool) (map : List UInt8) : List UInt8 :=
  let alignOffset := if misaligned then 1 else 0
  if 1 < map.length ∧ alignOffset ≠ 0 then
    classifyRest endian alignOffset (map.length - 1) (map.modify 0 classify)
  else classifyRest endian alignOffset map.length map

variable (map : List UInt8)

/-- `HitcountsIterableMapObserver::post_exec`. -/
def postExecIterable : List UInt8 := map.map classify

/-! ### Words -/

variable (high low : UInt8)

theorem toNat_join : (join high low).toNat = high.toNat * 256 + low.toNat := by
  have hhigh := high.toNat_lt
  have hlow := low.toNat_lt
  have hshift : (high.toUInt16 <<< 8).toNat = high.toNat <<< 8 := by
    have hlt : high.toNat <<< 8 < 2 ^ 16 := by
      omega
    exact Nat.mod_eq_of_lt hlt
  rw [join, UInt16.toNat_or, hshift, UInt8.toNat_toUInt16, ← Nat.shiftLeft_add_eq_or_of_lt (by omega),
    Nat.shiftLeft_eq]

theorem toUInt8_join : (join high low).toUInt8 = low := by
  apply UInt8.toNat_inj.mp
  have hlow := low.toNat_lt
  rw [UInt16.toNat_toUInt8, toNat_join]
  omega

theorem toUInt8_join_shift : (join high low >>> 8).toUInt8 = high := by
  apply UInt8.toNat_inj.mp
  have hhigh := high.toNat_lt
  have hlow := low.toNat_lt
  rw [UInt16.toNat_toUInt8, UInt16.toNat_shiftRight, toNat_join]
  show (high.toNat * 256 + low.toNat) >>> 8 % 2 ^ 8 = high.toNat
  omega

theorem write_join (first second : UInt8) :
    endian.write (endian.read first second) = [first, second] := by
  cases endian with
  | little | big => rw [Endian.write, Endian.read, toUInt8_join, toUInt8_join_shift]

/-! ### The table of words -/

theorem getD_initCountClass16 :
    initCountClass16.getD (join high low).toNat 0 = join (classify high) (classify low) := by
  have hhigh := high.toNat_lt
  have hlow := low.toNat_lt
  obtain ⟨value, hvalue⟩ : ∃ value : ℕ → UInt16, value = fun k =>
    join (countClassLookup.getD (k / 256) 0) (countClassLookup.getD (k % 256) 0) := ⟨_, rfl⟩
  have hloop : initCountClass16 = ((range 256).flatMap fun i =>
      (range 256).map fun j => i * 256 + j).foldl (fun table k => table.set k (value k))
        (replicate 65536 0) := by
    rw [foldl_flatMap, initCountClass16]
    refine foldl_ext _ _ _ fun table i _ => ?_
    rw [foldl_map]
    refine foldl_ext _ _ _ fun table j hj => ?_
    have hj : j < 256 := mem_range.mp hj
    have hdiv : (i * 256 + j) / 256 = i := by omega
    have hmod : (i * 256 + j) % 256 = j := by omega
    rw [hvalue, Nat.shiftLeft_eq]
    simp only [Nat.reducePow, hdiv, hmod]
  have hmem : high.toNat * 256 + low.toNat ∈ (range 256).flatMap fun i =>
      (range 256).map fun j => i * 256 + j := by
    simp only [mem_flatMap, mem_map, mem_range]
    exact ⟨high.toNat, by omega, low.toNat, by omega, rfl⟩
  have hdiv : (high.toNat * 256 + low.toNat) / 256 = high.toNat := by omega
  have hmod : (high.toNat * 256 + low.toNat) % 256 = low.toNat := by omega
  rw [toNat_join, getD_eq_getElem?_getD, hloop, Run.getElem?_foldl_set (fun k => k) value, map_id',
    if_pos hmem, getElem?_replicate_of_lt (by omega), hvalue]
  simp only [hdiv, hmod]
  rfl

theorem classifyWords_eq : ∀ (cnt : ℕ) (bytes : List UInt8), 2 * cnt ≤ bytes.length →
    classifyWords endian cnt bytes = (bytes.take (2 * cnt)).map classify ++ bytes.drop (2 * cnt)
  | 0, bytes, _ => by simp [classifyWords]
  | cnt + 1, [], h => by simp at h
  | cnt + 1, [_], h => by
    simp only [length_singleton] at h
    omega
  | cnt + 1, first :: second :: rest, h => by
    have hword : endian.write (initCountClass16.getD (endian.read first second).toNat 0) =
        [classify first, classify second] := by
      rw [← write_join endian]
      cases endian with
      | little | big => rw [Endian.read, getD_initCountClass16]; rfl
    have hrest : 2 * cnt ≤ rest.length := by
      simp only [length_cons] at h
      omega
    have htwo : 2 * (cnt + 1) = 2 * cnt + 1 + 1 := by omega
    rw [classifyWords, hword, classifyWords_eq cnt rest hrest, htwo]
    rfl

/-! ### Both observers -/

theorem classifyWords_half (bytes : List UInt8) (heven : bytes.length % 2 = 0) :
    classifyWords endian (bytes.length / 2) bytes = bytes.map classify := by
  have hlen : 2 * (bytes.length / 2) = bytes.length := by omega
  rw [classifyWords_eq endian _ _ (by omega), hlen, take_length, drop_length, append_nil]

theorem modify_length (before : List UInt8) (b : UInt8) (after : List UInt8) :
    (before ++ b :: after).modify before.length classify = before ++ classify b :: after := by
  induction before with
  | nil => rfl
  | cons a before ih => simpa using ih

theorem classifyRest_even (front rest : List UInt8) (heven : rest.length % 2 = 0) :
    classifyRest endian front.length rest.length (front ++ rest) = front ++ rest.map classify := by
  simp only [classifyRest, heven, ne_eq, not_true_eq_false, if_false]
  rw [take_left, drop_left, classifyWords_half endian rest heven]

theorem postExec_aligned : postExec endian false map = postExecIterable map := by
  rw [postExec, if_neg (by simp)]
  show classifyRest endian 0 map.length map = _
  obtain heven | hodd := Nat.mod_two_eq_zero_or_one map.length
  · exact classifyRest_even endian [] map heven
  -- the last byte is in no word
  obtain rfl | ⟨before, l, rfl⟩ := eq_nil_or_concat map
  · simp at hodd
  rw [concat_eq_append] at hodd ⊢
  rw [length_append, length_singleton] at hodd
  have hcnt : (before.length + 1) / 2 = before.length / 2 := by omega
  have hcover : 2 * (before.length / 2) = before.length := by omega
  simp only [classifyRest, length_append, length_singleton, hodd, ne_eq, Nat.one_ne_zero,
    not_false_eq_true, if_true, Nat.add_sub_cancel, modify_length, hcnt, take_zero,
    drop_zero, nil_append]
  rw [classifyWords_eq endian _ _ (by simp; omega), hcover, take_left, drop_left,
    postExecIterable, map_append]
  rfl

/-- A map of odd length at an odd address: the first byte is classified apart, and the words are the
    rest. -/
theorem postExec_misaligned_odd (hodd : map.length % 2 = 1) :
    postExec endian true map = postExecIterable map := by
  obtain _ | ⟨a, _ | ⟨b, rest⟩⟩ := map
  · simp at hodd
  · simp [postExec, classifyRest, classifyWords, postExecIterable]
  · exact classifyRest_even endian [classify a] (b :: rest) (by simp at hodd ⊢; omega)

/-- A map of even length at an odd address: the byte that is classified apart is not the last one,
    but the one before it, which is also in a word. -/
theorem postExec_misaligned_even (before : List UInt8) (p l : UInt8)
    (heven : before.length % 2 = 0) :
    postExec endian true (before ++ [p, l]) =
      before.map classify ++ [classify (classify p), l] := by
  cases before with
  | nil => simp [postExec, classifyRest, classifyWords]
  | cons a before =>
    have heven : (before.length + 1) % 2 = 0 := heven
    have hodd : (before.length + 2) % 2 = 1 := by omega
    have hcnt : (before.length + 2) / 2 = (before.length + 1) / 2 := by omega
    have hcover : 2 * ((before.length + 1) / 2) = (before ++ [classify p]).length := by
      simp only [length_append, length_singleton]
      omega
    have hmodify : (classify a :: (before ++ [p, l])).modify (before.length + 1) classify =
        [classify a] ++ (before ++ [classify p] ++ [l]) := by
      have := modify_length (classify a :: before) p [l]
      simpa using this
    rw [postExec, if_pos (by simp)]
    show classifyRest endian 1 (before ++ [p, l]).length (classify a :: (before ++ [p, l])) = _
    simp only [classifyRest, length_append, length_cons, length_nil, Nat.zero_add,
      Nat.reduceAdd, hodd, ne_eq, Nat.one_ne_zero, not_false_eq_true, if_true, hcnt, Nat.add_one_sub_one,
      hmodify]
    show [classify a] ++ classifyWords endian _ (before ++ [classify p] ++ [l]) = _
    rw [classifyWords_eq endian _ _ (by simp at hcover ⊢; omega), hcover, take_left, drop_left]
    simp

/-- The map is the one that the iterable observer leaves unless it starts at an odd address and has
    an even length; then it is so exactly if it makes no difference that the last byte is not
    classified, and the one before it twice. -/
theorem hitcounts_bucketing_iff (endian : Endian) (misaligned : Bool) (map : List UInt8) :
    postExec endian misaligned map = postExecIterable map ↔
      (misaligned = true → ∀ before p l, map = before ++ [p, l] → before.length % 2 = 0 →
        classify (classify p) = classify p ∧ classify l = l) := by
  cases misaligned with
  | false => exact iff_of_true (postExec_aligned endian map) (by simp)
  | true =>
    constructor
    · rintro h - before p l rfl heven
      rw [postExec_misaligned_even endian before p l heven, postExecIterable, map_append,
        append_cancel_left_eq] at h
      simp only [map_cons, map_nil, cons.injEq, and_true] at h
      exact ⟨h.1, h.2.symm⟩
    · intro h
      obtain heven | hodd := Nat.mod_two_eq_zero_or_one map.length
      · obtain rfl | ⟨init, l, rfl⟩ := eq_nil_or_concat map
        · rfl
        obtain rfl | ⟨before, p, rfl⟩ := eq_nil_or_concat init
        · simp at heven
        have hmap : (before.concat p).concat l = before ++ [p, l] := by simp
        rw [hmap] at heven h ⊢
        have heven : before.length % 2 = 0 := by
          simp only [length_append, length_cons, length_nil] at heven
          omega
        obtain ⟨hp, hl⟩ := h rfl before p l rfl heven
        rw [postExec_misaligned_even endian before p l heven, hp, postExecIterable, map_append]
        simp [hl]
      · exact postExec_misaligned_odd endian map hodd

/-- Two bytes at an odd address: the first count goes from 3 to 4 and on to 8, the second one
    stays. -/
theorem misaligned_pair_misclassified :
    postExec .little true [3, 3] = [8, 3] ∧ postExecIterable [3, 3] = [4, 4] := by
  decide +kernel

end Bofuzz.HitcountsMap
