import Bofuzz.FeaturesMap
import Mathlib.Data.List.Sort

/-! Selecting features by their Explore credit (`feature_sched/mask_selection.rs`). -/

namespace Bofuzz
open F64

variable {F : Type} [F64 F]

/-- The order of the selection: larger credit first, ties by schema index. -/
def creditOrder (a b : ℕ × F) : Bool :=
  ((partialCmp b.2 a.2).getD .eq).then (compare a.1 b.1) != .gt

variable (credits : List F)

/-- The schema indices with a positive credit. -/
def positiveCredits : List (ℕ × F) :=
  (credits.zipIdx.map fun c => (c.2, c.1)).filter fun c => F64.lt (F64.lit 0) c.2

def selectPositiveCreditTopKMask (schemaDim topK : ℕ) : Except Msg (Option (List Bool)) :=
  if credits.length ≠ schemaDim then .error (.creditsLength credits.length schemaDim)
  else if topK = 0 ∨ schemaDim < topK then .error (.topKRange topK schemaDim)
  else
    match firstBad 0 credits with
    | some (.nonFinite idx) => .error (.nonFiniteCredit idx)
    | some (.negative idx) => .error (.negativeCredit idx)
    | none =>
      let positive := positiveCredits credits
      if positive = [] then .ok none
      else
        let chosen := (positive.insertionSort (creditOrder · ·)).take topK
        .ok (some (chosen.foldl (fun mask c => mask.set c.1 true) (List.replicate schemaDim false)))

def projectVectorByMask {α : Type} (full : List α) (mask : List Bool) : Except Msg (List α) :=
  if full.length ≠ mask.length then .error (.projectionLength full.length mask.length)
  else .ok (((full.zip mask).filter (·.2)).map (·.1))

/-- The credits divided by their sum, or the equal simplex when there is none: the vector, whether
    some credit is positive, and the sum. -/
def normalizeCreditOrEqualSimplex : Except Msg (List F × Bool × F) :=
  if credits = [] then .ok ([], false, F64.lit 0)
  else
    match firstBad 0 credits with
    | some (.nonFinite idx) => .error (.normalizeNonFinite idx)
    | some (.negative idx) => .error (.normalizeNegative idx)
    | none =>
      let positiveSum := F64.sum (credits.filter (F64.lt (F64.lit 0)))
      if F64.lt (F64.lit 0) positiveSum then
        .ok (credits.map (· / positiveSum), true, positiveSum)
      else .ok (equalSimplex credits.length, false, F64.lit 0)

theorem normalizeCredit_length {credits v : List F} {b : Bool} {x : F}
    (h : normalizeCreditOrEqualSimplex credits = .ok (v, b, x)) : v.length = credits.length := by
  unfold normalizeCreditOrEqualSimplex at h
  split_ifs at h with hc
  · cases h; simp [hc]
  split at h
  · cases h
  · cases h
  · simp only at h
    split_ifs at h <;> (cases h; simp)

omit [F64 F] in
theorem foldl_set_length (chosen : List (ℕ × F)) (mask : List Bool) :
    (chosen.foldl (fun mask c => mask.set c.1 true) mask).length = mask.length := by
  induction chosen generalizing mask with
  | nil => rfl
  | cons c cs ih => rw [List.foldl_cons, ih, List.length_set]

theorem selectPositiveCreditTopKMask_length {credits : List F} {schemaDim topK : ℕ}
    {mask : List Bool} (h : selectPositiveCreditTopKMask credits schemaDim topK = .ok (some mask)) :
    mask.length = schemaDim := by
  unfold selectPositiveCreditTopKMask at h
  split_ifs at h
  split at h
  · cases h
  · cases h
  · simp only at h
    split_ifs at h
    · cases h
    · obtain rfl := Option.some.inj (Except.ok.inj h)
      rw [foldl_set_length, List.length_replicate]

theorem projectVectorByMask_length {α : Type} {full v : List α} {mask : List Bool}
    (h : projectVectorByMask full mask = .ok v) : v.length = mask.count true := by
  unfold projectVectorByMask at h
  split_ifs at h with hlen
  obtain rfl := Except.ok.inj h
  rw [List.length_map, zip_filter_length _ _ (not_not.mp hlen).symm]

end Bofuzz
