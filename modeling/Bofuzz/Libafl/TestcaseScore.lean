import Bofuzz.Libafl.WeightedScheduler
import Bofuzz.Lib.RealNum

/-! The weight of a corpus entry (`libafl/src/schedulers/testcase_score.rs`, `powersched.rs`,
    `stages/calibrate.rs`).

    The weight is a product of factors that come from the scheduler, the calibration, the minimizer
    and the feature stages, and `compute` asserts that the product is a normal number. In exact
    arithmetic every factor is positive or ruins the product (`ExactReal.Factor`), so that
    `corpus_weight_positive_iff` can say when the assertion holds. -/

namespace Bofuzz.Weighted
open F64 List Real

variable {F : Type} [F64 F]

/-! ### The metadata -/

def nFuzzSize : ℕ := 2 ^ 21

/-- What the power schedules keep in the state. -/
structure SchedulerMetadata (F : Type) where
  strat : Option PowerSchedule
  /-- In nanoseconds. -/
  execTime : ℕ
  cycles : ℕ
  bitmapSizeLog : F
  bitmapEntries : ℕ
  nFuzz : List ℕ

namespace SchedulerMetadata

def new (strat : Option PowerSchedule) : SchedulerMetadata F where
  strat := strat
  execTime := 0
  cycles := 0
  bitmapSizeLog := lit 0
  bitmapEntries := 0
  nFuzz := List.replicate nFuzzSize 0

end SchedulerMetadata

def log2 (x : F) : F := ln x / ln (lit 2)

def log10 (x : F) : F := ln x / ln (lit 10)

/-- What is done to the metadata of the scheduler: a calibration of an entry that covers something,
    an evaluation that hashes to a path, a change of the strategy. -/
inductive SchedulerEvent where
  | calibrated (totalTime iter bitmapSize : ℕ) (hsize : 1 ≤ bitmapSize)
  | evaluated (hash : ℕ)
  | setStrat (strat : Option PowerSchedule)

def SchedulerMetadata.step (m : SchedulerMetadata F) : SchedulerEvent → SchedulerMetadata F
  | .calibrated totalTime iter bitmapSize _ => { m with
      execTime := m.execTime + totalTime
      cycles := m.cycles + iter
      bitmapSizeLog := m.bitmapSizeLog + log2 (ofNat bitmapSize)
      bitmapEntries := m.bitmapEntries + 1 }
  | .evaluated hash =>
    let hash := hash % m.nFuzz.length
    { m with nFuzz := m.nFuzz.modify hash fun n => min (n + 1) (2 ^ 32 - 1) }
  | .setStrat strat => { m with strat := strat }

/-- The state, as far as a weight depends on it; of the top rated entries only their number does. -/
structure ScoreState (F : Type) where
  scheduler : Option (SchedulerMetadata F)
  topRateds : Option ℕ
  featMode : Option ℕ

/-- `SchedulerTestcaseMetadata`, as far as a weight depends on it. -/
structure ScoreMeta where
  bitmapSize : ℕ
  nFuzzEntry : ℕ

/-- An entry; `mapIndexes` is the reference count of its `MapIndexesMetadata`. -/
structure ScoreEntry (F : Type) where
  scheduledCount : ℕ
  execTime : Option ℕ
  scheduler : Option ScoreMeta
  favored : Bool
  mapIndexes : Option ℤ
  objectivesFound : ℕ
  externalPerfMult : Option F

/-! ### The weight -/

/-- `f64::is_normal`; without rounding no value is subnormal. -/
def isNormal (x : F) : Bool := isFinite x && (lt x (lit 0) || lt (lit 0) x)

def avoidsCrash (m : SchedulerMetadata F) : Bool := m.strat.any (·.avoidCrash)

/-- The strategies that weigh how often a path was taken. -/
def BaseSchedule.countsPaths : BaseSchedule → Bool
  | .fast | .coe | .lin | .quad => true
  | .explore | .exploit => false

/-- The weight by the frequency of the entry's path. -/
def pathWeight (psmeta : SchedulerMetadata F) (tcmeta : ScoreMeta) : Except Error F :=
  match psmeta.strat with
  | some ps =>
    if ps.base.countsPaths then
      match psmeta.nFuzz[tcmeta.nFuzzEntry]? with
      | none => .error .indexPanic
      | some hits =>
        if hits > 0 then .ok (lit 1 / (log10 (ofNat hits) + lit 1)) else .ok (lit 1)
    else .ok (lit 1)
  | none => .ok (lit 1)

variable (s : ScoreState F)

def getFeatModeFromState : ℕ := s.featMode.getD 0

/-- The factor of the feature stages is used. -/
def usesMult (m : F) : Bool :=
  isFinite m && lt (lit (1 / 10 ^ 12)) (abs (m - lit 1)) && lt (lit 0) m

/-- The factor of the feature stages on a weight. -/
def applyMult (entry : ScoreEntry F) (weight : F) : F :=
  if getFeatModeFromState s = 1 ∨ getFeatModeFromState s = 3 then
    match entry.externalPerfMult with
    | some m => if usesMult m then weight * m else weight
    | none => weight
  else weight

/-- The factors after the frequency of the path. -/
def finishWeight (psmeta : SchedulerMetadata F) (tcmeta : ScoreMeta)
    (entry : ScoreEntry F) (qExecUs : ℕ) (avgTopSize : ℕ) (weight : F) : F :=
  let avgExecUs := ofNat psmeta.execTime / ofNat psmeta.cycles
  let avgBitmapSize := psmeta.bitmapSizeLog / ofNat psmeta.bitmapEntries
  let qBitmapSize : F := ofNat tcmeta.bitmapSize
  let weight := weight * (avgExecUs / ofNat qExecUs)
  let weight := weight * (max (log2 qBitmapSize) (lit 1) / avgBitmapSize)
  let tcRef : F := lit (entry.mapIndexes.getD 0)
  let weight := weight * (lit 1 + tcRef / ofNat avgTopSize)
  let weight := if entry.favored then weight * lit 5 else weight
  let weight := if entry.scheduledCount = 0 then weight * lit 2 else weight
  let weight := if 0 < entry.objectivesFound ∧ avoidsCrash psmeta then weight * lit 0 else weight
  applyMult s entry weight

/-- `metadata::<M>()?`. -/
def metadata {α : Type} (name : String) : Option α → Except Error α
  | some m => .ok m
  | none => .error (.keyNotFound (.typeNotFound name))

def compute (entry : ScoreEntry F) : Except Error F := do
  let psmeta ← metadata "libafl::schedulers::powersched::SchedulerMetadata" s.scheduler
  let tcmeta ← metadata "libafl::corpus::testcase::SchedulerTestcaseMetadata" entry.scheduler
  if entry.scheduledCount = 0 ∨ psmeta.cycles = 0 then pure (lit 1)
  else
    match entry.execTime with
    | none => throw (.keyNotFound .execTimeMissing)
    | some qExecUs =>
      let weight ← pathWeight psmeta tcmeta
      match s.topRateds with
      | none => throw (.keyNotFound .minimizerNeeded)
      | some avgTopSize =>
        let weight := finishWeight s psmeta tcmeta entry qExecUs avgTopSize weight
        if isNormal weight then pure weight else throw .assertPanic

/-! ### Exact factors -/

section
open ExactReal

theorem lit_two : (lit 2 : ExactReal) = fin 2 := by
  rw [lit_eq]
  norm_num

theorem lit_zero : (lit 0 : ExactReal) = fin 0 := by rw [lit_eq, Rat.cast_zero]

theorem lit_one : (lit 1 : ExactReal) = fin 1 := by rw [lit_eq, Rat.cast_one]

theorem log_two_pos : 0 < log 2 := log_pos (by norm_num)

theorem log2_fin {x : ℝ} (hx : 0 < x) : log2 (fin x) = fin (log x / log 2) := by
  rw [log2, lit_two, ln_fin hx, ln_fin (by norm_num), fin_div _ log_two_pos.ne']

theorem log2_ofNat_nonneg {n : ℕ} (hn : 1 ≤ n) :
    ∃ b : ℝ, log2 (ofNat n : ExactReal) = fin b ∧ 0 ≤ b ∧ (0 < b ↔ 2 ≤ n) := by
  have hone : (1 : ℝ) ≤ n := by exact_mod_cast hn
  refine ⟨log n / log 2, ?_, div_nonneg (log_nonneg hone) log_two_pos.le, ?_⟩
  · rw [ofNat_eq, log2_fin (by linarith)]
  · rw [div_pos_iff_of_pos_right log_two_pos, log_pos_iff (by linarith)]
    exact Nat.one_lt_cast

/-- The size of an entry's own map counts at least one, also where it was never measured. -/
theorem max_log2_positive (n : ℕ) : Positive (F64.max (log2 (ofNat n : ExactReal)) (lit 1)) := by
  rw [lit_one]
  obtain rfl | hn := Nat.eq_zero_or_pos n
  · refine ⟨1, ?_, one_pos⟩
    rw [log2, ofNat_eq, Nat.cast_zero, ln_zero, lit_two, ln_fin (by norm_num)]
    show F64.max (inf (true != decide (log 2 < 0))) (fin 1) = fin 1
    rw [decide_eq_false log_two_pos.not_gt]
    rfl
  · obtain ⟨b, hb, -⟩ := log2_ofNat_nonneg hn
    rw [hb, max_fin]
    exact ⟨max b 1, rfl, lt_max_of_lt_right one_pos⟩

theorem time_factor {cycles qExecUs : ℕ} (hcycles : 1 ≤ cycles) (hq : 0 < qExecUs) (execTime : ℕ) :
    Factor (ofNat execTime / ofNat cycles / ofNat qExecUs) (0 < execTime) := by
  have hc : (0 : ℝ) < cycles := by exact_mod_cast hcycles
  have hq' : (0 : ℝ) < qExecUs := by exact_mod_cast hq
  rw [ofNat_eq, ofNat_eq, ofNat_eq, fin_div _ hc.ne', fin_div _ hq'.ne']
  constructor
  · intro h
    have he : (0 : ℝ) < execTime := by exact_mod_cast h
    exact ⟨_, rfl, by positivity⟩
  · intro h
    obtain rfl : execTime = 0 := by omega
    show (_ : ℝ) = 0
    simp

variable {x : ExactReal}

theorem size_factor (hx : Positive x) {b : ℝ} (hb : 0 ≤ b) {entries : ℕ} (he : 1 ≤ entries) :
    Factor (x / (fin b / ofNat entries)) (0 < b) := by
  obtain ⟨r, rfl, hr⟩ := hx
  have he' : (0 : ℝ) < entries := by exact_mod_cast he
  rw [ofNat_eq, fin_div _ he'.ne']
  constructor
  · intro hpos
    have havg : b / entries ≠ 0 := by positivity
    exact ⟨_, fin_div r havg, by positivity⟩
  · intro hzero
    obtain rfl : b = 0 := le_antisymm (not_lt.mp hzero) hb
    show Degenerate (if (0 : ℝ) / entries = 0 then (if r = 0 then nan else inf (decide (r < 0))) else _)
    rw [if_pos (zero_div _), if_neg hr.ne']
    trivial

theorem reference_factor {refs : ℤ} (hrefs : 0 ≤ refs) (len : ℕ) :
    Factor (lit 1 + lit refs / ofNat len : ExactReal) (len ≠ 0) := by
  have hr : (0 : ℝ) ≤ ((refs : ℚ) : ℝ) := by exact_mod_cast hrefs
  rw [lit_eq, lit_eq, ofNat_eq]
  constructor
  · intro hlen
    have hl : (0 : ℝ) < len := by exact_mod_cast Nat.pos_of_ne_zero hlen
    rw [fin_div _ hl.ne', fin_add]
    exact ⟨_, rfl, by push_cast; positivity⟩
  · intro hlen
    obtain rfl : len = 0 := not_not.mp hlen
    show Degenerate (fin ((1 : ℚ) : ℝ) + if ((0 : ℕ) : ℝ) = 0 then
      (if ((refs : ℚ) : ℝ) = 0 then nan else inf (decide (((refs : ℚ) : ℝ) < 0))) else _)
    rw [if_pos Nat.cast_zero]
    split_ifs <;> trivial

theorem lit_positive {q : ℚ} (hq : 0 < q) : Positive (lit q) :=
  ⟨q, lit_eq q, by exact_mod_cast hq⟩

theorem log10_positive {hits : ℕ} (h : hits > 0) :
    Positive (log10 (ofNat hits : ExactReal) + lit 1) := by
  have hone : (1 : ℝ) ≤ hits := by exact_mod_cast h
  have hten : (lit 10 : ExactReal) = fin 10 := by
    rw [lit_eq]
    norm_num
  have hlog : 0 < log 10 := log_pos (by norm_num)
  have hnonneg : 0 ≤ log hits / log 10 := div_nonneg (log_nonneg hone) hlog.le
  rw [log10, ofNat_eq, hten, ln_fin (by linarith), ln_fin (by norm_num), fin_div _ hlog.ne', lit_eq, fin_add]
  exact ⟨_, rfl, by push_cast; linarith⟩

theorem usesMult_positive {m : ExactReal} (h : usesMult m = true) : Positive m := by
  rw [usesMult, Bool.and_eq_true, Bool.and_eq_true] at h
  obtain ⟨⟨hfinite, -⟩, hpos⟩ := h
  cases m with
  | nan | inf => cases hfinite
  | fin r =>
    rw [lit_eq, lt_fin] at hpos
    exact ⟨r, rfl, by exact_mod_cast hpos⟩

theorem isNormal_of_factor {p : Prop} (h : Factor x p) : isNormal x = true ↔ p := by
  constructor
  · intro hnormal
    by_contra hp
    have hdeg := h.deg hp
    rw [isNormal, Bool.and_eq_true, Bool.or_eq_true] at hnormal
    cases x with
    | nan | inf => cases hnormal.1
    | fin r =>
      obtain rfl : r = 0 := hdeg
      rw [lit_eq, lt_fin, lt_fin] at hnormal
      simp at hnormal
  · intro hp
    obtain ⟨r, rfl, hr⟩ := h.pos hp
    rw [isNormal, Bool.and_eq_true, Bool.or_eq_true, lit_eq, lt_fin, lt_fin]
    exact ⟨rfl, .inr (by exact_mod_cast hr)⟩

/-! ### What the events leave behind -/

/-- A calibration that counts for the average size. -/
def SchedulerEvent.Wide : SchedulerEvent → Prop
  | .calibrated _ _ bitmapSize _ => 2 ≤ bitmapSize
  | _ => False

/-- The sum of the logarithms is finite and not negative; it is positive once a calibrated entry has
    covered two map entries. -/
theorem bitmapSizeLog_run (events : List SchedulerEvent) :
    ∀ {m : SchedulerMetadata ExactReal} {b : ℝ},
    m.bitmapSizeLog = fin b → 0 ≤ b →
      ∃ b' : ℝ, (Run.run SchedulerMetadata.step m events).bitmapSizeLog = fin b' ∧ 0 ≤ b' ∧
        (0 < b' ↔ 0 < b ∨ ∃ e ∈ events, e.Wide) := by
  induction events with
  | nil => exact fun {m b} hm hb => ⟨b, hm, hb, by simp⟩
  | cons e events ih =>
    intro m b hm hb
    obtain ⟨c, hc, hc0, hiff⟩ : ∃ c : ℝ, (m.step e).bitmapSizeLog = fin c ∧ 0 ≤ c ∧ (0 < c ↔ 0 < b ∨ e.Wide) := by
      cases e with
      | calibrated totalTime iter bitmapSize hsize =>
        obtain ⟨d, hd, hd0, hwide⟩ := log2_ofNat_nonneg hsize
        refine ⟨b + d, ?_, add_nonneg hb hd0, ?_⟩
        · show m.bitmapSizeLog + log2 (ofNat bitmapSize) = _
          rw [hm, hd, fin_add]
        · rw [SchedulerEvent.Wide, ← hwide]
          constructor
          · intro h
            by_contra hneither
            push Not at hneither
            linarith [hneither.1, hneither.2]
          · rintro (h | h)
            · linarith
            · linarith
      | evaluated | setStrat => exact ⟨b, hm, hb, by simp [SchedulerEvent.Wide]⟩
    obtain ⟨b', hb', hb0, hiff'⟩ := ih hc hc0
    refine ⟨b', hb', hb0, ?_⟩
    rw [hiff', hiff, or_assoc, exists_mem_cons_iff]

theorem length_nFuzz_run (events : List SchedulerEvent) (m : SchedulerMetadata ExactReal) :
    (Run.run SchedulerMetadata.step m events).nFuzz.length = m.nFuzz.length := by
  induction events generalizing m with
  | nil => rfl
  | cons e events ih =>
    have hstep : (m.step e).nFuzz.length = m.nFuzz.length := by
      cases e with
      | calibrated => rfl
      | evaluated hash => exact length_modify _ _ _
      | setStrat => rfl
    exact (ih (m.step e)).trans hstep

/-! ### The weight of an entry -/

/-- The metadata of the state and of an entry that has been calibrated: the scheduler's was changed
    by events only, the entry's path is one of the table, and it is not referred to less than
    never. -/
structure Attached (s : ScoreState ExactReal) (entry : ScoreEntry ExactReal)
    (psmeta : SchedulerMetadata ExactReal) (tcmeta : ScoreMeta) (qExecUs avgTopSize : ℕ) :
    Prop where
  scheduler : s.scheduler = some psmeta
  events : ∃ strat events, psmeta = Run.run SchedulerMetadata.step (.new strat) events
  cycles : 1 ≤ psmeta.cycles
  entries : 1 ≤ psmeta.bitmapEntries
  entryMeta : entry.scheduler = some tcmeta
  path : tcmeta.nFuzzEntry < nFuzzSize
  time : entry.execTime = some qExecUs
  time_pos : 0 < qExecUs
  top : s.topRateds = some avgTopSize
  refs : ∀ refs, entry.mapIndexes = some refs → 0 ≤ refs

/-- The weight comes out: the entry is new, or it is not to be avoided, time has passed, some entry
    covers more than one map entry, and there are top rated entries. -/
def Weighable (entry : ScoreEntry ExactReal) (psmeta : SchedulerMetadata ExactReal)
    (avgTopSize : ℕ) : Prop :=
  entry.scheduledCount = 0 ∨
    (¬ (0 < entry.objectivesFound ∧ avoidsCrash psmeta = true) ∧ 0 < psmeta.execTime ∧
      Positive psmeta.bitmapSizeLog ∧ avgTopSize ≠ 0)

section
variable {s : ScoreState ExactReal} {entry : ScoreEntry ExactReal} {psmeta : SchedulerMetadata ExactReal}
  {tcmeta : ScoreMeta} {qExecUs avgTopSize : ℕ}

theorem applyMult_factor {p : Prop} (hx : Factor x p) : Factor (applyMult s entry x) p := by
  rw [applyMult]
  split_ifs
  · cases entry.externalPerfMult with
    | none => exact hx
    | some m => exact hx.ite_positive usesMult_positive
  · exact hx

variable (h : Attached s entry psmeta tcmeta qExecUs avgTopSize)
include h

theorem Attached.log : ∃ b : ℝ, psmeta.bitmapSizeLog = fin b ∧ 0 ≤ b := by
  obtain ⟨strat, events, rfl⟩ := h.events
  have hzero : (SchedulerMetadata.new strat : SchedulerMetadata ExactReal).bitmapSizeLog = fin 0 := lit_zero
  obtain ⟨b, hb, hb0, -⟩ := bitmapSizeLog_run events hzero le_rfl
  exact ⟨b, hb, hb0⟩

theorem pathWeight_positive : ∃ w, pathWeight psmeta tcmeta = .ok w ∧ Positive w := by
  have hone : Positive (lit 1) := lit_positive one_pos
  have hpath : tcmeta.nFuzzEntry < psmeta.nFuzz.length := by
    obtain ⟨strat, events, rfl⟩ := h.events
    rw [length_nFuzz_run]
    exact h.path.trans_eq length_replicate.symm
  rw [pathWeight]
  cases psmeta.strat with
  | none => exact ⟨_, rfl, hone⟩
  | some ps =>
    dsimp only
    split_ifs with hcounts
    · rw [getElem?_eq_getElem hpath]
      dsimp only
      split_ifs with hhits
      · exact ⟨_, rfl, hone.div (log10_positive hhits)⟩
      · exact ⟨_, rfl, hone⟩
    · exact ⟨_, rfl, hone⟩

/-- The product has no positive value just when one of its factors spoils it. -/
theorem finishWeight_factor (hcount : entry.scheduledCount ≠ 0) {w : ExactReal} (hw : Positive w) :
    Factor (finishWeight s psmeta tcmeta entry qExecUs avgTopSize w) (Weighable entry psmeta avgTopSize) := by
  obtain ⟨b, hb, hb0⟩ := h.log
  have hlog : Positive (fin b) ↔ 0 < b := by
    constructor
    · rintro ⟨r, hr, hpos⟩
      rwa [ExactReal.fin.inj hr]
    · exact fun hpos => ⟨b, rfl, hpos⟩
  have hrefs : 0 ≤ entry.mapIndexes.getD 0 := by
    cases hindexes : entry.mapIndexes with
    | none => exact le_rfl
    | some refs => exact h.refs refs hindexes
  have hzero : Degenerate (lit 0) := by
    exact Rat.cast_zero
  have htime := time_factor h.cycles h.time_pos psmeta.execTime
  have hsize := size_factor (max_log2_positive tcmeta.bitmapSize) hb0 h.entries
  have hproduct := ((hw.factor.mul htime).mul hsize).mul (reference_factor hrefs avgTopSize)
  have hfavored := hproduct.ite_positive (c := entry.favored = true) fun _ =>
    lit_positive (show (0 : ℚ) < 5 by norm_num)
  have hcrash := hfavored.ite_degenerate (c := 0 < entry.objectivesFound ∧ avoidsCrash psmeta = true) hzero
  rw [finishWeight, if_neg hcount, hb]
  refine applyMult_factor (hcrash.congr ?_)
  rw [Weighable, or_iff_right hcount, hb, hlog]
  tauto

theorem compute_eq (hcount : entry.scheduledCount ≠ 0) :
    ∃ w, compute s entry = (if isNormal w then .ok w else .error .assertPanic) ∧
      Factor w (Weighable entry psmeta avgTopSize) := by
  obtain ⟨w, hw, hpos⟩ := pathWeight_positive h
  refine ⟨finishWeight s psmeta tcmeta entry qExecUs avgTopSize w, ?_, finishWeight_factor h hcount hpos⟩
  have hcycles : ¬ (entry.scheduledCount = 0 ∨ psmeta.cycles = 0) := by
    have := h.cycles
    omega
  simp only [compute, h.scheduler, h.entryMeta, h.time, h.top, metadata, hw, bind, Except.bind, if_neg hcycles]
  rfl

/-- The assertion fails, or a positive weight is returned. -/
theorem compute_cases :
    (Weighable entry psmeta avgTopSize ∧ ∃ w, compute s entry = .ok w ∧ Positive w) ∨
      (¬ Weighable entry psmeta avgTopSize ∧ compute s entry = .error .assertPanic) := by
  by_cases hcount : entry.scheduledCount = 0
  · refine .inl ⟨.inl hcount, lit 1, ?_, lit_positive one_pos⟩
    simp only [compute, h.scheduler, h.entryMeta, metadata, bind, Except.bind, if_pos (Or.inl hcount)]
    rfl
  · obtain ⟨w, hcompute, hfactor⟩ := compute_eq h hcount
    rw [hcompute]
    by_cases hnormal : isNormal w = true
    · rw [if_pos hnormal]
      have hcond := (isNormal_of_factor hfactor).mp hnormal
      exact .inl ⟨hcond, w, rfl, hfactor.pos hcond⟩
    · rw [if_neg hnormal]
      exact .inr ⟨fun hcond => hnormal ((isNormal_of_factor hfactor).mpr hcond), rfl⟩

end

theorem foldl_positive {ids : List CorpusId} {f : CorpusId → ExactReal}
    (hpos : ∀ i ∈ ids, Positive (f i)) :
    ∀ {x : ℝ}, 0 ≤ x → ∃ y : ℝ, (ids.map f).foldl (· + ·) (fin x) = fin y ∧ x ≤ y ∧ (ids ≠ [] → x < y) := by
  induction ids with
  | nil => exact fun {x} _ => ⟨x, rfl, le_rfl, fun h => absurd rfl h⟩
  | cons i ids ih =>
    intro x hx
    obtain ⟨r, hr, hr0⟩ := hpos i (by simp)
    obtain ⟨y, hy, hxy, -⟩ := ih (fun j hj => hpos j (by simp [hj])) (add_nonneg hx hr0.le)
    refine ⟨y, ?_, by linarith, fun _ => by linarith⟩
    rw [map_cons, foldl_cons, hr, fin_add, hy]

/-- In exact arithmetic, whatever the stages have attached: an entry gets a weight above zero just
    when it is `Weighable`, and otherwise the assertion fails; a table of a corpus sums to more than
    zero just when all entries are. -/
theorem corpus_weight_positive_iff (s : ScoreState ExactReal) (psmeta : SchedulerMetadata ExactReal)
    (avgTopSize : ℕ) (ids : List CorpusId) (hne : ids ≠ [])
    (entry : CorpusId → ScoreEntry ExactReal)
    (h : ∀ i ∈ ids, ∃ tcmeta qExecUs, Attached s (entry i) psmeta tcmeta qExecUs avgTopSize) :
    (∀ i ∈ ids, ((∃ w, compute s (entry i) = .ok w ∧ Positive w) ↔ Weighable (entry i) psmeta avgTopSize) ∧
      (¬ Weighable (entry i) psmeta avgTopSize → compute s (entry i) = .error .assertPanic)) ∧
    ((∃ weights sum, weigh (fun i => compute s (entry i)) ids (fun _ => none) (lit 0) = .ok (weights, sum) ∧
        Positive sum) ↔ ∀ i ∈ ids, Weighable (entry i) psmeta avgTopSize) := by
  have hcases : ∀ i ∈ ids, (Weighable (entry i) psmeta avgTopSize ∧
        ∃ w, compute s (entry i) = .ok w ∧ Positive w) ∨
      (¬ Weighable (entry i) psmeta avgTopSize ∧ compute s (entry i) = .error .assertPanic) := by
    intro i hi
    obtain ⟨tcmeta, qExecUs, hattached⟩ := h i hi
    exact compute_cases hattached
  refine ⟨fun i hi => ?_, ?_⟩
  · obtain ⟨hw, hok⟩ | ⟨hw, hpanic⟩ := hcases i hi
    · exact ⟨⟨fun _ => hw, fun _ => hok⟩, fun hnot => absurd hw hnot⟩
    refine ⟨⟨?_, fun hnot => absurd hnot hw⟩, fun _ => hpanic⟩
    rintro ⟨w, hok, -⟩
    rw [hpanic] at hok
    cases hok
  · constructor
    · rintro ⟨weights, sum, hweigh, -⟩ i hi
      obtain ⟨x, hx⟩ := weigh_ok ids hweigh i hi
      obtain ⟨hw, -⟩ | ⟨-, hpanic⟩ := hcases i hi
      · exact hw
      · rw [hpanic] at hx
        cases hx
    · intro hall
      have hweights : ∀ i ∈ ids, ∃ w, compute s (entry i) = .ok w ∧ Positive w := by
        intro i hi
        obtain ⟨-, hok⟩ | ⟨hw, -⟩ := hcases i hi
        · exact hok
        · exact absurd (hall i hi) hw
      have : Nonempty ExactReal := ⟨nan⟩
      choose! f hf hpos using hweights
      obtain ⟨y, hy, -, hlt⟩ := foldl_positive hpos le_rfl
      refine ⟨_, _, weigh_eq ids hf _ _, y, ?_, hlt hne⟩
      rw [lit_zero]
      exact hy

namespace Demo

variable (strat : Option PowerSchedule)

/-- One entry that covers two map entries has been calibrated in four runs of a nanosecond. -/
noncomputable def schedulerMeta : SchedulerMetadata ExactReal :=
  Run.run SchedulerMetadata.step (.new strat) [.calibrated 4 4 2 (by decide)]

noncomputable def scoreState : ScoreState ExactReal where
  scheduler := some (schedulerMeta strat)
  topRateds := some 2
  featMode := some 1

/-- The entry, once it has been scheduled. -/
def scoreEntry (objectivesFound : ℕ) : ScoreEntry ExactReal where
  scheduledCount := 1
  execTime := some 1
  scheduler := some { bitmapSize := 2, nFuzzEntry := 0 }
  favored := true
  mapIndexes := some 2
  objectivesFound := objectivesFound
  externalPerfMult := some (fin 1)

theorem attached (objectivesFound : ℕ) :
    Attached (scoreState strat) (scoreEntry objectivesFound) (schedulerMeta strat)
      { bitmapSize := 2, nFuzzEntry := 0 } 1 2 where
  scheduler := rfl
  events := ⟨strat, _, rfl⟩
  cycles := by
    show 1 ≤ 0 + 4
    decide
  entries := le_rfl
  entryMeta := rfl
  path := by
    rw [nFuzzSize]
    positivity
  time := rfl
  time_pos := one_pos
  top := rfl
  refs := by
    rintro refs ⟨⟩
    decide

theorem weighable : Weighable (scoreEntry 0) (schedulerMeta strat) 2 := by
  have hzero : (SchedulerMetadata.new strat : SchedulerMetadata ExactReal).bitmapSizeLog = fin 0 := lit_zero
  have htime : (schedulerMeta strat).execTime = 0 + 4 := rfl
  obtain ⟨b, hb, -, hwide⟩ := bitmapSizeLog_run [.calibrated 4 4 2 (by decide)] hzero le_rfl
  refine .inr ⟨by simp [scoreEntry], by omega, ⟨b, hb, hwide.mpr (.inr ?_)⟩, by decide⟩
  exact ⟨_, mem_singleton_self _, le_rfl⟩

end Demo

theorem corpus_weight_positive_demo :
    ∃ weights sum, weigh (fun _ => compute (Demo.scoreState (some { base := .fast })) (Demo.scoreEntry 0)) [0]
      (fun _ => none) (lit 0) = .ok (weights, sum) ∧ Positive sum :=
  (corpus_weight_positive_iff (Demo.scoreState (some { base := .fast })) _ 2 [0] (by simp)
    (fun _ => Demo.scoreEntry 0) fun _ _ => ⟨_, 1, Demo.attached _ 0⟩).2.mpr fun _ _ => Demo.weighable _

/-- An entry with an objective, under a strategy that avoids crashes: its weight of zero is not
    normal. -/
theorem avoided_entry_aborts :
    compute (Demo.scoreState (some { base := .explore, avoidCrash := true })) (Demo.scoreEntry 1) =
      .error .assertPanic := by
  obtain ⟨hw, -⟩ | ⟨-, hpanic⟩ := compute_cases (Demo.attached (some { base := .explore, avoidCrash := true }) 1)
  · obtain hcount | ⟨havoided, -⟩ := hw
    · cases hcount
    · exact absurd ⟨one_pos, rfl⟩ havoided
  · exact hpanic

end

end Bofuzz.Weighted
