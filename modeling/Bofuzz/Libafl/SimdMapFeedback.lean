import Bofuzz.Libafl.MapFeedback

/-! The vectorised map feedback (`libafl/src/feedbacks/map.rs`).

    For maps of bytes under the maximum there is a second `is_interesting`, which compares 16
    entries at a time and the rest one by one. What it finds is what a scan of all places finds
    (`simd_eq_scan`), so that it can be compared with the default in three respects: it grows the
    history with zeros, not with the initial value, and it does not leave out the entries that are
    equal to the initial value. -/

namespace Bofuzz.MapFeedback
open List Nat MapFeedbackMetadata

/-- `VectorType::LEN`. -/
def vectorLen : ℕ := 16

/-! ### The code -/

variable (history map : List UInt8)

/-- The entry number `j` is above the history. -/
def above (j : ℕ) : Bool := history.getD j 0 < map.getD j 0

/-- `VectorType::from_slice(&values[i..])`. -/
def lanes (values : List UInt8) (i : ℕ) : List UInt8 := (values.drop i).take vectorLen

/-- `items.simd_max(history) != history`. -/
def lanesDiffer (i : ℕ) : Bool :=
  List.zipWith max (lanes map i) (lanes history i) != lanes history i

/-- A vector step of the scan that tracks novelties. -/
def trackLanes (acc : Bool × List ℕ) (step : ℕ) : Bool × List ℕ :=
  let i := step * vectorLen
  if lanesDiffer history map i then
    (true, acc.2 ++ (List.range' i vectorLen).filter (above history map))
  else acc

/-- A step of the rest of that scan. -/
def trackRest (history map : List UInt8) (acc : Bool × List ℕ) (j : ℕ) : Bool × List ℕ :=
  if above history map j then (true, acc.2 ++ [j]) else acc

/-- `is_interesting_u8_simd_optimized`, for an observer with the usable count `size`. -/
def isInterestingU8SimdOptimized (size : ℕ) (map : List UInt8) (w : World UInt8) :
    Bool × World UInt8 :=
  let mapState := w.mapState.grow map.length 0
  let history := mapState.historyMap
  let steps := List.range (size / vectorLen)
  let left := List.range' (size - size % vectorLen) (size % vectorLen)
  match w.novelties with
  | some _ =>
    let vectors := steps.foldl (trackLanes history map) (false, [])
    let (interesting, novelties) := left.foldl (trackRest history map) vectors
    (interesting, { novelties := some novelties, mapState })
  | none =>
    (steps.any (fun step => lanesDiffer history map (step * vectorLen)) || left.any (above history map),
      { w with mapState })

/-- A feedback over bytes with `MaxReducer` and `DifferentIsNovel`. -/
def maxFeedback (indices : Bool) (initial : UInt8) : Feedback UInt8 where
  reducer := .max
  isNovel old new := old != new
  indices := indices
  initial := initial

theorem maxFeedback_initial (indices : Bool) (initial : UInt8) :
    (maxFeedback indices initial).initial = initial := rfl

/-! ### Vectors -/

section
variable {history map : List UInt8}

theorem max_eq_right_iff (item h : UInt8) : max item h = h ↔ ¬ h < item := by
  show (if item ≤ h then h else item) = h ↔ ¬ h < item
  rw [UInt8.not_lt]
  constructor
  · intro heq
    split_ifs at heq with hle
    · exact hle
    · exact heq ▸ UInt8.le_refl h
  · exact fun hle => if_pos hle

theorem zipWith_max_ne_iff : ∀ {items hs : List UInt8}, items.length = hs.length →
    (zipWith max items hs ≠ hs ↔ ∃ j < hs.length, hs.getD j 0 < items.getD j 0)
  | [], [], _ => by simp
  | item :: items, h :: hs, hlen => by
    have ih := zipWith_max_ne_iff (Nat.succ.inj hlen)
    rw [zipWith_cons_cons, ne_eq, cons.injEq, not_and_or, max_eq_right_iff, not_not, ← ne_eq, ih]
    constructor
    · rintro (hhead | ⟨j, hj, hlt⟩)
      · exact ⟨0, succ_pos _, hhead⟩
      · exact ⟨j + 1, succ_lt_succ hj, hlt⟩
    · rintro ⟨_ | j, hj, hlt⟩
      · exact .inl hlt
      · exact .inr ⟨j, lt_of_succ_lt_succ hj, hlt⟩

theorem getD_lanes (values : List UInt8) (i : ℕ) {j : ℕ} (hj : j < vectorLen) :
    (lanes values i).getD j 0 = values.getD (i + j) 0 := by
  rw [getD_eq_getElem?_getD, getD_eq_getElem?_getD, lanes, getElem?_take_of_lt hj,
    getElem?_drop]

theorem length_lanes {values : List UInt8} {i : ℕ} (h : i + vectorLen ≤ values.length) :
    (lanes values i).length = vectorLen := by
  rw [lanes, length_take_of_le]
  rw [length_drop]
  omega

theorem lanesDiffer_eq_any {i : ℕ} (hmap : i + vectorLen ≤ map.length)
    (hhistory : i + vectorLen ≤ history.length) :
    lanesDiffer history map i = (range' i vectorLen).any (above history map) := by
  rw [Bool.eq_iff_iff, any_eq_true, lanesDiffer, bne_iff_ne,
    zipWith_max_ne_iff ((length_lanes hmap).trans (length_lanes hhistory).symm),
    length_lanes hhistory]
  simp only [mem_range'_1, above, decide_eq_true_eq]
  constructor
  · rintro ⟨j, hj, hlt⟩
    rw [getD_lanes _ _ hj, getD_lanes _ _ hj] at hlt
    exact ⟨i + j, ⟨by omega, by omega⟩, hlt⟩
  · rintro ⟨k, ⟨hik, hk⟩, hlt⟩
    obtain ⟨j, rfl⟩ := Nat.exists_eq_add_of_le hik
    have hj : j < vectorLen := by omega
    refine ⟨j, hj, ?_⟩
    rw [getD_lanes _ _ hj, getD_lanes _ _ hj]
    exact hlt

/-! ### The scan of all places -/

theorem range_mul (steps : ℕ) : range (steps * vectorLen) =
    (range steps).flatMap fun step => range' (step * vectorLen) vectorLen := by
  induction steps with
  | zero => rfl
  | succ steps ih =>
    rw [range_succ, flatMap_append, ← ih, succ_mul, range_add]
    simp [range'_eq_map_range]

/-- The places of a map, in the order in which the vectors and the rest go over them. -/
theorem range_eq_lanes (size : ℕ) : range size =
    (range (size / vectorLen)).flatMap (fun step => range' (step * vectorLen) vectorLen) ++
      range' (size - size % vectorLen) (size % vectorLen) := by
  have hdiv := div_add_mod size vectorLen
  have hstart : size - size % vectorLen = size / vectorLen * vectorLen := by
    rw [mul_comm]
    omega
  rw [← range_mul, hstart, range'_eq_map_range, ← range_add, mul_comm, hdiv]

/-- What a scan of some places adds to what was found before. -/
def foundIn (history map : List UInt8) (acc : Bool × List ℕ) (places : List ℕ) : Bool × List ℕ :=
  (acc.1 || places.any (above history map), acc.2 ++ places.filter (above history map))

variable (acc : Bool × List ℕ)

theorem foundIn_nil : foundIn history map acc [] = acc := by simp [foundIn]

theorem foundIn_append (places rest : List ℕ) :
    foundIn history map (foundIn history map acc places) rest =
      foundIn history map acc (places ++ rest) := by
  simp [foundIn, Bool.or_assoc]

theorem foundIn_of_none {places : List ℕ} (h : places.any (above history map) = false) :
    foundIn history map acc places = acc := by
  have hfilter : places.filter (above history map) = [] := by
    rw [filter_eq_nil_iff]
    exact fun j hj => by simpa using any_eq_false.mp h j hj
  simp [foundIn, h, hfilter]

theorem foldl_trackLanes (steps : List ℕ)
    (hmap : ∀ step ∈ steps, step * vectorLen + vectorLen ≤ map.length)
    (hhistory : ∀ step ∈ steps, step * vectorLen + vectorLen ≤ history.length)
    (acc : Bool × List ℕ) :
    steps.foldl (trackLanes history map) acc =
      foundIn history map acc (steps.flatMap fun step => range' (step * vectorLen) vectorLen) := by
  induction steps generalizing acc with
  | nil => exact (foundIn_nil acc).symm
  | cons step steps ih =>
    have hdiffer := lanesDiffer_eq_any (hmap step (by simp)) (hhistory step (by simp))
    have hstep : trackLanes history map acc step =
        foundIn history map acc (range' (step * vectorLen) vectorLen) := by
      rw [trackLanes]
      rw [hdiffer]
      split_ifs with h
      · simp [foundIn, h]
      · exact (foundIn_of_none acc (Bool.not_eq_true _ ▸ h)).symm
    rw [foldl_cons, hstep, ih (fun s hs => hmap s (by simp [hs])) fun s hs => hhistory s (by simp [hs]),
      foundIn_append]
    rfl

theorem foldl_trackRest (places : List ℕ) (acc : Bool × List ℕ) :
    places.foldl (trackRest history map) acc = foundIn history map acc places := by
  induction places generalizing acc with
  | nil => exact (foundIn_nil acc).symm
  | cons j places ih =>
    have hstep : trackRest history map acc j = foundIn history map acc [j] := by
      rw [trackRest]
      split_ifs with h
      · simp [foundIn, h]
      · simp [foundIn, h]
    rw [foldl_cons, hstep, ih, foundIn_append]
    rfl

end

/-! ### What the two versions find -/

section
variable (map : List UInt8) (w : World UInt8)

theorem steps_within {size step : ℕ} (h : step ∈ range (size / vectorLen)) :
    step * vectorLen + vectorLen ≤ size := by
  have hstep : step + 1 ≤ size / vectorLen := mem_range.mp h
  calc step * vectorLen + vectorLen = (step + 1) * vectorLen := (succ_mul _ _).symm
    _ ≤ size / vectorLen * vectorLen := mul_le_mul_right _ hstep
    _ ≤ size := div_mul_le_self _ _

/-- The vectorised version is a scan of all places against the history grown with zeros. -/
theorem simd_eq_scan : isInterestingU8SimdOptimized map.length map w =
    let mapState := w.mapState.grow map.length 0
    ((range map.length).any (above mapState.historyMap map),
      { novelties := w.novelties.map fun _ => (range map.length).filter (above mapState.historyMap map)
        mapState }) := by
  have hgrown := grow_length w.mapState map.length (0 : UInt8)
  obtain ⟨mapState, hstate⟩ : ∃ s, w.mapState.grow map.length 0 = s := ⟨_, rfl⟩
  rw [hstate] at hgrown
  have hlanes := fun step hstep => (steps_within hstep : step * vectorLen + vectorLen ≤ map.length)
  simp only [isInterestingU8SimdOptimized, hstate]
  cases hnovelties : w.novelties with
  | some _ =>
    simp only [foldl_trackLanes _ hlanes (fun step hstep => (hlanes step hstep).trans hgrown),
      foldl_trackRest, foundIn_append, ← range_eq_lanes]
    simp [foundIn]
  | none =>
    have hsteps : ((range (map.length / vectorLen)).any fun step =>
        lanesDiffer mapState.historyMap map (step * vectorLen)) =
        (range (map.length / vectorLen)).any fun step =>
          (range' (step * vectorLen) vectorLen).any (above mapState.historyMap map) := by
      rw [Bool.eq_iff_iff, any_eq_true, any_eq_true]
      refine exists_congr fun step => and_congr_right fun hstep => ?_
      rw [lanesDiffer_eq_any (hlanes step hstep) ((hlanes step hstep).trans hgrown)]
    rw [hsteps, range_eq_lanes map.length, any_append, any_flatMap]
    simp

theorem zipIdx_eq_map_range : map.zipIdx = (range map.length).map fun j => (map.getD j 0, j) := by
  apply ext_getElem?
  intro j
  rw [getElem?_zipIdx, getElem?_map]
  by_cases hj : j < map.length
  · simp [hj]
  · simp [hj]

theorem novel_maxFeedback (indices : Bool) (initial : UInt8) {history : List UInt8} {j : ℕ}
    (hj : j < history.length) :
    novel (maxFeedback indices initial) history (map.getD j 0, j) = above history map j := by
  have hexisting : history.getD j initial = history.getD j 0 := by
    simp [getElem?_eq_getElem hj]
  simp only [novel, maxFeedback, Reducer.reduce, MapEntry.lt, hexisting, above, decide_eq_true_eq]
  split_ifs with hlt
  · simp only [bne_self_eq_false, UInt8.lt_iff_toNat_lt] at hlt ⊢
    simp only [Bool.false_eq, decide_eq_false_iff_not]
    omega
  · rw [Bool.eq_iff_iff, bne_iff_ne, decide_eq_true_eq, ne_eq, ← UInt8.toNat_inj, UInt8.lt_iff_toNat_lt]
    rw [UInt8.lt_iff_toNat_lt] at hlt
    omega

/-- The default version scans the same places, without those of the initial value, against the
    history grown with the initial value. -/
theorem default_eq_scan (indices : Bool) (initial : UInt8) :
    isInterestingDefault (maxFeedback indices initial) map w =
      let mapState := w.mapState.grow map.length initial
      let places := (range map.length).filter fun j => map.getD j 0 ≠ initial
      (places.any (above mapState.historyMap map),
        { novelties := w.novelties.map fun _ => places.filter (above mapState.historyMap map)
          mapState }) := by
  have hgrown := grow_length w.mapState map.length initial
  have hhits : (maxFeedback indices initial).hits map =
      ((range map.length).filter fun j => map.getD j 0 ≠ initial).map fun j => (map.getD j 0, j) := by
    rw [Feedback.hits, zipIdx_eq_map_range, filter_map]
    rfl
  have hnovel : ∀ j ∈ (range map.length).filter fun j => map.getD j 0 ≠ initial,
      novel (maxFeedback indices initial) (w.mapState.grow map.length initial).historyMap (map.getD j 0, j) =
        above (w.mapState.grow map.length initial).historyMap map j := fun j hj =>
    novel_maxFeedback map indices initial ((mem_range.mp (mem_of_mem_filter hj)).trans_le hgrown)
  have hfilter : ((maxFeedback indices initial).hits map).filter (novel (maxFeedback indices initial)
      (w.mapState.grow map.length initial).historyMap) =
        (((range map.length).filter fun j => map.getD j 0 ≠ initial).filter
          (above (w.mapState.grow map.length initial).historyMap map)).map fun j => (map.getD j 0, j) := by
    rw [hhits, filter_map]
    exact congrArg _ (filter_congr hnovel)
  have hflag := any_eq_not_isEmpty ((maxFeedback indices initial).hits map)
    (novel (maxFeedback indices initial) (w.mapState.grow map.length initial).historyMap)
  have hempty : ((maxFeedback indices initial).hits map).any (novel (maxFeedback indices initial)
      (w.mapState.grow map.length initial).historyMap) =
        ((range map.length).filter fun j => map.getD j 0 ≠ initial).any
          (above (w.mapState.grow map.length initial).historyMap map) := by
    rw [hflag, hfilter, isEmpty_map, ← any_eq_not_isEmpty]
  cases hnovelties : w.novelties with
  | none => simp only [isInterestingDefault, hnovelties, ← hempty, Option.map_none, maxFeedback_initial]
  | some _ =>
    have hsnd : ∀ js : List ℕ, (js.map fun j => (map.getD j 0, j)).map Prod.snd = js := by
      intro js
      rw [map_map]
      exact map_id js
    simp only [isInterestingDefault, hnovelties, ← hempty, hflag, maxFeedback_initial, Option.map_some]
    rw [hfilter, hsnd]

end

/-! ### Agreement -/

/-- An entry of the initial value that is above the history. -/
def Masked (initial : UInt8) (history map : List UInt8) (j : ℕ) : Prop :=
  map[j]? = some initial ∧ ∃ h, history[j]? = some h ∧ h < initial

/-- An entry of another value that is above the history. -/
def Unmasked (initial : UInt8) (history map : List UInt8) (j : ℕ) : Prop :=
  ∃ v h, map[j]? = some v ∧ v ≠ initial ∧ history[j]? = some h ∧ h < v

theorem grow_eq_iff (s : MapFeedbackMetadata UInt8) (len : ℕ) (initial : UInt8) :
    s.grow len 0 = s.grow len initial ↔ (s.historyMap.length < len → initial = 0) := by
  constructor
  · intro h hlt
    rw [grow, grow, if_pos hlt, if_pos hlt] at h
    have hhistory : resizeWith s.historyMap len 0 = resizeWith s.historyMap len initial :=
      congrArg historyMap h
    -- the first place that is new
    have hnew : ∀ value : UInt8, (resizeWith s.historyMap len value)[s.historyMap.length]? = some value := by
      intro value
      rw [resizeWith, take_of_length_le hlt.le, getElem?_append_right le_rfl, Nat.sub_self]
      exact getElem?_replicate_of_lt (Nat.sub_pos_of_lt hlt)
    have hvalue := hnew initial
    rw [← hhistory, hnew 0] at hvalue
    exact (Option.some.inj hvalue).symm
  · intro h
    rw [grow, grow]
    split_ifs with hlt
    · rw [h hlt]
    · rfl

section
variable {β : Type} (xs : List β) (p q : β → Bool)

/-- Leaving out the places without `q` loses nothing that is found. -/
theorem filter_eq_filter_filter_iff :
    xs.filter p = (xs.filter q).filter p ↔ ¬ ∃ x ∈ xs, p x = true ∧ q x = false := by
  constructor
  · rintro h ⟨x, hx, hp, hq⟩
    have hmem : x ∈ (xs.filter q).filter p := h ▸ mem_filter.mpr ⟨hx, hp⟩
    rw [(mem_filter.mp (mem_of_mem_filter hmem)).2] at hq
    cases hq
  · intro h
    rw [filter_filter]
    refine filter_congr fun x hx => ?_
    cases hp : p x with
    | false => rfl
    | true =>
      cases hq : q x with
      | true => rfl
      | false => exact absurd ⟨x, hx, hp, hq⟩ h

theorem any_eq_any_filter_iff :
    xs.any p = (xs.filter q).any p ↔
      ((∃ x ∈ xs, p x = true ∧ q x = false) → ∃ x ∈ xs, p x = true ∧ q x = true) := by
  rw [Bool.eq_iff_iff, any_eq_true, any_eq_true]
  simp only [mem_filter]
  constructor
  · rintro h ⟨x, hx, hp, -⟩
    obtain ⟨y, ⟨hy, hq⟩, hpy⟩ := h.mp ⟨x, hx, hp⟩
    exact ⟨y, hy, hpy, hq⟩
  · intro h
    constructor
    · rintro ⟨x, hx, hp⟩
      cases hq : q x with
      | true => exact ⟨x, ⟨hx, hq⟩, hp⟩
      | false =>
        obtain ⟨y, hy, hpy, hqy⟩ := h ⟨x, hx, hp, hq⟩
        exact ⟨y, ⟨hy, hqy⟩, hpy⟩
    · rintro ⟨x, ⟨hx, -⟩, hp⟩
      exact ⟨x, hx, hp⟩

end

section
variable {initial : UInt8} {map : List UInt8} {s : MapFeedbackMetadata UInt8}

theorem above_iff {history : List UInt8} {j : ℕ} {v h : UInt8} (hv : map[j]? = some v)
    (hh : history[j]? = some h) : above history map j = true ↔ h < v := by
  simp [above, hv, hh]

/-- What a place of the scan is, where the history reaches it. -/
theorem scanned_iff (hlen : map.length ≤ s.historyMap.length) (j : ℕ) (b : Bool) :
    (j ∈ range map.length ∧ above (s.grow map.length initial).historyMap map j = true ∧
        decide (map.getD j 0 ≠ initial) = b) ↔
      ∃ v h, map[j]? = some v ∧ s.historyMap[j]? = some h ∧ h < v ∧ decide (v ≠ initial) = b := by
  have hsame : s.grow map.length initial = s := if_neg (not_lt.mpr hlen)
  rw [hsame, mem_range]
  constructor
  · rintro ⟨hj, habove, hb⟩
    have hv := getElem?_eq_getElem hj
    have hh := getElem?_eq_getElem (hj.trans_le hlen)
    refine ⟨_, _, hv, hh, (above_iff hv hh).mp habove, ?_⟩
    rwa [getD_eq_getElem?_getD, hv] at hb
  · rintro ⟨v, h, hv, hh, hlt, hb⟩
    refine ⟨(List.getElem?_eq_some_iff.mp hv).1, (above_iff hv hh).mpr hlt, ?_⟩
    rwa [getD_eq_getElem?_getD, hv]

theorem masked_iff (hgrow : s.historyMap.length < map.length → initial = 0) (j : ℕ) :
    Masked initial s.historyMap map j ↔ j ∈ range map.length ∧
      above (s.grow map.length initial).historyMap map j = true ∧ decide (map.getD j 0 ≠ initial) = false := by
  by_cases hzero : initial = 0
  · -- nothing is below zero
    subst hzero
    refine iff_of_false ?_ ?_
    · rintro ⟨-, h, -, hlt⟩
      exact UInt8.not_lt_zero hlt
    · rintro ⟨-, habove, hv⟩
      have hv : map.getD j 0 = 0 := by simpa using hv
      rw [above, hv] at habove
      exact UInt8.not_lt_zero (of_decide_eq_true habove)
  · have hlen : map.length ≤ s.historyMap.length := not_lt.mp fun h => hzero (hgrow h)
    rw [scanned_iff hlen]
    constructor
    · rintro ⟨hv, h, hh, hlt⟩
      exact ⟨initial, h, hv, hh, hlt, by simp⟩
    · rintro ⟨v, h, hv, hh, hlt, hmask⟩
      obtain rfl : v = initial := by simpa using hmask
      exact ⟨hv, h, hh, hlt⟩

theorem unmasked_iff (hlen : map.length ≤ s.historyMap.length) (j : ℕ) :
    Unmasked initial s.historyMap map j ↔ j ∈ range map.length ∧
      above (s.grow map.length initial).historyMap map j = true ∧ decide (map.getD j 0 ≠ initial) = true := by
  rw [scanned_iff hlen]
  refine exists_congr fun v => exists_congr fun h => ?_
  rw [decide_eq_true_eq]
  tauto

/-- A masked entry is found in a history that reaches as far as the map, if the two versions grow it
    alike. -/
theorem length_le_of_masked (hgrow : s.historyMap.length < map.length → initial = 0)
    (h : ∃ j, Masked initial s.historyMap map j) : map.length ≤ s.historyMap.length := by
  obtain ⟨j, -, h, -, hlt⟩ := h
  refine not_lt.mp fun hshort => ?_
  rw [hgrow hshort] at hlt
  exact UInt8.not_lt_zero hlt

end

/-- For every map, history and initial value: the two versions return the same flag, track the same
    novelties and leave the same history exactly if the history need not grow or the initial value
    is zero, and no entry of the initial value is above the history, or novelties are not tracked
    and another entry is above it too. -/
theorem simd_equals_default_iff (indices : Bool) (initial : UInt8) (map : List UInt8)
    (w : World UInt8) :
    isInterestingU8SimdOptimized map.length map w =
      isInterestingDefault (maxFeedback indices initial) map w ↔
      (w.mapState.historyMap.length < map.length → initial = 0) ∧
      ((∃ j, Masked initial w.mapState.historyMap map j) →
        w.novelties = none ∧ ∃ j, Unmasked initial w.mapState.historyMap map j) := by
  rw [simd_eq_scan, default_eq_scan, Prod.mk.injEq, World.mk.injEq, grow_eq_iff]
  by_cases hgrow : w.mapState.historyMap.length < map.length → initial = 0
  · have hsame := (grow_eq_iff w.mapState map.length initial).mpr hgrow
    have hmasked : (∃ j, Masked initial w.mapState.historyMap map j) ↔ _ :=
      exists_congr (masked_iff hgrow)
    have htracked := filter_eq_filter_filter_iff (range map.length)
      (above (w.mapState.grow map.length initial).historyMap map) fun j => map.getD j 0 ≠ initial
    rw [← hmasked] at htracked
    rw [hsame, any_eq_any_filter_iff, ← hmasked]
    have hflag : ((∃ j, Masked initial w.mapState.historyMap map j) → ∃ j ∈ range map.length,
        above (w.mapState.grow map.length initial).historyMap map j = true ∧
          decide (map.getD j 0 ≠ initial) = true) ↔
        ((∃ j, Masked initial w.mapState.historyMap map j) →
          ∃ j, Unmasked initial w.mapState.historyMap map j) := by
      refine imp_congr_right fun hmask => exists_congr fun j => ?_
      exact (unmasked_iff (length_le_of_masked hgrow hmask) j).symm
    rw [hflag]
    cases w.novelties with
    | none =>
      simp only [Option.map_none, true_and]
      exact and_comm
    | some _ =>
      rw [Option.map_some, Option.map_some, Option.some.injEq, htracked]
      simp only [reduceCtorEq, false_and, imp_false]
      constructor
      · exact fun h => ⟨hgrow, h.2.1⟩
      · exact fun h => ⟨fun hmask => absurd hmask h.2, h.2, hgrow⟩
  · exact iff_of_false (fun h => hgrow h.2.2) fun h => hgrow h.1

/-- One entry, still at its initial value 1, and a history that is at 0: the vectorised version
    finds a novelty, the default does not. -/
theorem simd_reports_initial_value :
    (isInterestingU8SimdOptimized 1 [1] { novelties := some [], mapState := { historyMap := [0] } }).1 = true ∧
      (isInterestingDefault (maxFeedback false 1) [1]
        { novelties := some [], mapState := { historyMap := [0] } }).1 = false := by
  decide

end Bofuzz.MapFeedback
