import Bofuzz.Lib.Result
import Bofuzz.Libafl.TestcaseScore

/-! The power of a corpus entry (`CorpusPowerTestcaseScore` of
    `libafl/src/schedulers/testcase_score.rs`).

    A score from the time, the size, the handicap and the depth of the entry is multiplied by a
    factor that its strategy chooses, and then bounded from both sides. The lower bound is meant for
    every strategy but `COE`; the test that guards it names `COE` alone. -/

namespace Bofuzz.Weighted
open F64

variable {F : Type} [F64 F]

/-- The state, as far as a power depends on it: the sum of the bitmap sizes in the scheduler's
    metadata, the paths of the entries of the corpus, and which of them is the current one. -/
structure PowerState (F : Type) extends ScoreState F where
  bitmapSize : ℕ
  corpus : List (ℕ × Option ScoreMeta)
  current : Option ℕ

/-- An entry with the rest of its `SchedulerTestcaseMetadata`. -/
structure PowerEntry (F : Type) extends ScoreEntry F where
  depth : ℕ
  handicap : ℕ

/-! ### The code -/

def powerBeta : F := lit 1

def maxFactor : F := powerBeta * lit 32

def havocMaxMult : F := lit 64

def testcaseMetadata : Option ScoreMeta → Except Error ScoreMeta :=
  metadata "libafl::corpus::testcase::SchedulerTestcaseMetadata"

/-- How often the path of an entry was taken. -/
def fuzzCount (psmeta : SchedulerMetadata F) (tcmeta : ScoreMeta) : Except Error ℕ :=
  match psmeta.nFuzz[tcmeta.nFuzzEntry]? with
  | none => .error .indexPanic
  | some hits => .ok hits

variable (s : PowerState F) (entry : PowerEntry F)

/-- The mean of the logarithms over the corpus. The entry itself is borrowed, so that its own
    metadata is passed along. -/
def fuzzMu (psmeta : SchedulerMetadata F) : Except Error F := do
  match s.current with
  | none => throw .unwrapPanic
  | some curIndex =>
    let v ← s.corpus.foldlM (fun v other => do
      let tcmeta ← testcaseMetadata (if other.1 = curIndex then entry.scheduler else other.2)
      let hits ← fuzzCount psmeta tcmeta
      return v + log2 (ofNat hits)) (lit 0)
    if s.corpus.length = 0 then throw (.unknown .queueCorrupt)
    else return v / ofNat s.corpus.length

/-- The score by the time of the entry and the average one. -/
def timeScore (qExecUs avgExecUs : F) : F :=
  if lt avgExecUs (qExecUs * lit (1 / 10)) then lit 10
  else if lt avgExecUs (qExecUs * lit (2 / 10)) then lit 25
  else if lt avgExecUs (qExecUs * lit (5 / 10)) then lit 50
  else if lt avgExecUs (qExecUs * lit (75 / 100)) then lit 75
  else if lt (qExecUs * lit 4) avgExecUs then lit 300
  else if lt (qExecUs * lit 3) avgExecUs then lit 200
  else if lt (qExecUs * lit 2) avgExecUs then lit 150
  else lit 100

def scaleBySize (qBitmapSize avgBitmapSize perfScore : F) : F :=
  if lt avgBitmapSize (qBitmapSize * lit (3 / 10)) then perfScore * lit 3
  else if lt avgBitmapSize (qBitmapSize * lit (5 / 10)) then perfScore * lit 2
  else if lt avgBitmapSize (qBitmapSize * lit (75 / 100)) then perfScore * lit (15 / 10)
  else if lt (qBitmapSize * lit 3) avgBitmapSize then perfScore * lit (25 / 100)
  else if lt (qBitmapSize * lit 2) avgBitmapSize then perfScore * lit (5 / 10)
  else if lt (qBitmapSize * lit (15 / 10)) avgBitmapSize then perfScore * lit (75 / 100)
  else perfScore

def scaleByHandicap (handicap : ℕ) (perfScore : F) : F :=
  if 4 ≤ handicap then perfScore * lit 4
  else if 0 < handicap then perfScore * lit 2
  else perfScore

def scaleByDepth (depth : ℕ) (perfScore : F) : F :=
  if 4 ≤ depth ∧ depth < 8 then perfScore * lit 2
  else if 8 ≤ depth ∧ depth < 14 then perfScore * lit 3
  else if 14 ≤ depth ∧ depth < 25 then perfScore * lit 4
  else if 25 ≤ depth then perfScore * lit 5
  else perfScore

/-- The score before the strategy has a say. -/
def baseScore (psmeta : SchedulerMetadata F) (tcmeta : ScoreMeta) (qExecUs : ℕ) : F :=
  let avgExecUs := ofNat psmeta.execTime / ofNat psmeta.cycles
  let avgBitmapSize := if psmeta.bitmapEntries = 0 then 1 else s.bitmapSize / psmeta.bitmapEntries
  let perfScore := timeScore (ofNat qExecUs) avgExecUs
  let perfScore := scaleBySize (ofNat tcmeta.bitmapSize) (ofNat avgBitmapSize) perfScore
  scaleByDepth entry.depth (scaleByHandicap entry.handicap perfScore)

/-- The factor of `FAST` for an entry that has been scheduled. -/
def fastFactor (favored : Bool) (lg : F) : F :=
  let factor : F :=
    if lt lg (lit 2) then lit 4
    else if le (lit 2) lg && lt lg (lit 4) then lit 3
    else if le (lit 4) lg && lt lg (lit 5) then lit 2
    else if le (lit 6) lg && lt lg (lit 7) then
      if favored then lit 1 else lit (8 / 10)
    else if le (lit 7) lg && lt lg (lit 8) then
      if favored then lit 1 else lit (6 / 10)
    else if le (lit 8) lg then if favored then lit 1 else lit (4 / 10)
    else lit 1
  if favored then factor * lit (115 / 100) else factor

/-- The factor of a strategy. The counter of a path has 32 bits and the number of schedulings 64,
    and the sum and the product wrap around. -/
def strategyFactor (base : BaseSchedule) (entry : PowerEntry F) (fuzzMu : F)
    (count : Except Error ℕ) :
    Except Error F := do
  match base with
  | .explore => return lit 1
  | .exploit => return maxFactor
  | .coe =>
    let hits ← count
    return if lt fuzzMu (log2 (ofNat hits)) && !entry.favored then lit 0 else lit 1
  | .fast =>
    if entry.scheduledCount ≠ 0 then
      let hits ← count
      return fastFactor entry.favored (log2 (ofNat hits))
    else return lit 1
  | .lin =>
    let hits ← count
    return ofNat entry.scheduledCount / ofNat ((hits + 1) % 2 ^ 32)
  | .quad =>
    let hits ← count
    return ofNat (entry.scheduledCount * entry.scheduledCount % 2 ^ 64) / ofNat ((hits + 1) % 2 ^ 32)

/-- The score with the factor of the strategy, and the bounds. -/
def boundScore (base : Option BaseSchedule) (factor perfScore : F) : F :=
  let perfScore :=
    match base with
    | none | some .explore => perfScore
    | _ => perfScore * ((if lt maxFactor factor then maxFactor else factor) / powerBeta)
  let perfScore :=
    match base with
    | some .coe => if lt perfScore (lit 1) then lit 1 else perfScore
    | _ => perfScore
  if lt (havocMaxMult * lit 100) perfScore then havocMaxMult * lit 100 else perfScore

/-- The strategy, if there is one. -/
def SchedulerMetadata.base (psmeta : SchedulerMetadata F) : Option BaseSchedule :=
  psmeta.strat.map PowerSchedule.base

/-- The mean is only computed for `COE`. -/
def meanOf (psmeta : SchedulerMetadata F) : Except Error F :=
  match psmeta.base with
  | some .coe => fuzzMu s entry psmeta
  | _ => .ok (lit 0)

def factorOf (psmeta : SchedulerMetadata F) (tcmeta : ScoreMeta) (fuzzMu : F) : Except Error F :=
  match psmeta.base with
  | some base => strategyFactor base entry fuzzMu (fuzzCount psmeta tcmeta)
  | none => .ok (lit 1)

/-- `CorpusPowerTestcaseScore::compute` up to the factor of the feature stages. -/
def power : Except Error F := do
  let psmeta ← metadata "libafl::schedulers::powersched::SchedulerMetadata" s.scheduler
  let fuzzMu ← meanOf s entry psmeta
  match entry.execTime with
  | none => throw (.keyNotFound .execTimeMissing)
  | some qExecUs =>
    let tcmeta ← testcaseMetadata entry.scheduler
    let factor ← factorOf entry psmeta tcmeta fuzzMu
    return boundScore psmeta.base factor (baseScore s entry psmeta tcmeta qExecUs)

/-- `CorpusPowerTestcaseScore::compute`. -/
def computePower : Except Error F := do
  let perfScore ← power s entry
  let perfScore :=
    if getFeatModeFromState s.toScoreState = 2 ∨ getFeatModeFromState s.toScoreState = 3 then
      match entry.externalPerfMult with
      | some m => if usesMult m then perfScore * m else perfScore
      | none => perfScore
    else perfScore
  return if 0 < entry.objectivesFound ∧ s.scheduler.any avoidsCrash then perfScore * lit 0 else perfScore

/-! ### The score before the strategy -/

section
open ExactReal

/-- A number that is not below `c`. -/
def AtLeast (c : ℝ) (x : ExactReal) : Prop := ∃ r : ℝ, x = fin r ∧ c ≤ r

theorem AtLeast.lit {c : ℝ} {q : ℚ} (h : c ≤ q) : AtLeast c (lit q) := ⟨q, lit_eq q, h⟩

variable {x : ExactReal}

/-- A factor lowers the bound by as much. -/
theorem AtLeast.mul_lit {c d : ℝ} {q : ℚ} (h : AtLeast c x) (hq : 0 ≤ q) (hd : d ≤ c * q) :
    AtLeast d (x * F64.lit q) := by
  obtain ⟨r, rfl, hr⟩ := h
  refine ⟨r * q, by rw [lit_eq, fin_mul], hd.trans ?_⟩
  exact mul_le_mul_of_nonneg_right hr (by exact_mod_cast hq)

theorem timeScore_atLeast (qExecUs avgExecUs : ExactReal) :
    AtLeast 10 (timeScore qExecUs avgExecUs) := by
  unfold timeScore
  split_ifs <;> exact .lit (by norm_num)

theorem scaleBySize_atLeast (qBitmapSize avgBitmapSize : ExactReal) (h : AtLeast 10 x) :
    AtLeast (5 / 2) (scaleBySize qBitmapSize avgBitmapSize x) := by
  unfold scaleBySize
  split_ifs
  case neg =>
    obtain ⟨r, hx, hr⟩ := h
    exact ⟨r, hx, by linarith⟩
  all_goals exact h.mul_lit (by norm_num) (by norm_num)

theorem scaleByHandicap_atLeast (handicap : ℕ) (h : AtLeast (5 / 2) x) :
    AtLeast (5 / 2) (scaleByHandicap handicap x) := by
  unfold scaleByHandicap
  split_ifs
  · exact h.mul_lit (by norm_num) (by norm_num)
  · exact h.mul_lit (by norm_num) (by norm_num)
  · exact h

theorem scaleByDepth_atLeast (depth : ℕ) (h : AtLeast (5 / 2) x) :
    AtLeast (5 / 2) (scaleByDepth depth x) := by
  unfold scaleByDepth
  split_ifs
  case neg => exact h
  all_goals exact h.mul_lit (by norm_num) (by norm_num)

/-- The worst time and the worst size leave two and a half. -/
theorem baseScore_atLeast (s : PowerState ExactReal) (entry : PowerEntry ExactReal)
    (psmeta : SchedulerMetadata ExactReal) (tcmeta : ScoreMeta) (qExecUs : ℕ) :
    AtLeast (5 / 2) (baseScore s entry psmeta tcmeta qExecUs) :=
  scaleByDepth_atLeast _ (scaleByHandicap_atLeast _ (scaleBySize_atLeast _ _ (timeScore_atLeast _ _)))

/-- The least factor of `FAST` makes up for the worst score. -/
theorem fastFactor_atLeast (favored : Bool) (lg : ExactReal) :
    AtLeast (2 / 5) (fastFactor favored lg) := by
  unfold fastFactor
  cases favored with
  | false =>
    simp only [Bool.false_eq_true, if_false]
    split_ifs <;> exact .lit (by norm_num)
  | true =>
    simp only [if_true]
    refine AtLeast.mul_lit (c := 1) ?_ (by norm_num) (by norm_num)
    split_ifs <;> exact .lit (by norm_num)

/-! ### The bounds -/

theorem maxFactor_eq : (maxFactor : ExactReal) = fin 32 := by
  rw [maxFactor, powerBeta, lit_eq, lit_eq, fin_mul]
  norm_num

theorem havoc_eq : (havocMaxMult * lit 100 : ExactReal) = fin 6400 := by
  rw [havocMaxMult, lit_eq, lit_eq, fin_mul]
  norm_num

/-- The score for a factor that is a number. -/
noncomputable def boundReal (base : Option BaseSchedule) (factor b : ℝ) : ℝ :=
  match base with
  | none | some .explore => b
  | some .coe => max (b * min factor 32) 1
  | _ => b * min factor 32

theorem ite_lt_min (c x : ℝ) :
    (if F64.lt (fin c) (fin x) then fin c else fin x) = fin (min x c) := by
  by_cases h : c < x
  · rw [if_pos ((lt_fin c x).mpr h), min_eq_right h.le]
  · rw [if_neg fun hlt => h ((lt_fin c x).mp hlt), min_eq_left (not_lt.mp h)]

theorem ite_lt_max (c x : ℝ) :
    (if F64.lt (fin x) (fin c) then fin c else fin x) = fin (max x c) := by
  by_cases h : x < c
  · rw [if_pos ((lt_fin x c).mpr h), max_eq_right h.le]
  · rw [if_neg fun hlt => h ((lt_fin x c).mp hlt), max_eq_left (not_lt.mp h)]

theorem div_powerBeta (x : ℝ) : (fin x / powerBeta : ExactReal) = fin x := by
  rw [powerBeta, lit_eq, Rat.cast_one, fin_div x one_ne_zero, div_one]

theorem boundScore_fin (base : Option BaseSchedule) (factor b : ℝ) :
    boundScore base (fin factor) (fin b) = fin (min (boundReal base factor b) 6400) := by
  unfold boundScore boundReal
  simp only [maxFactor_eq, havoc_eq, lit_one, ite_lt_min, div_powerBeta, fin_mul]
  rcases base with _ | base
  · rw [ite_lt_min]
  · cases base <;> simp only [ite_lt_min, ite_lt_max]

theorem ofNat_div (c : ℕ) {d : ℕ} (hd : d ≠ 0) : (ofNat c / ofNat d : ExactReal) = fin (c / d) := by
  rw [ofNat_eq, ofNat_eq, fin_div _ (by exact_mod_cast hd)]

theorem ofNat_div_zero (c : ℕ) :
    (ofNat c / ofNat 0 : ExactReal) = if c = 0 then nan else inf false := by
  have hneg : ¬ (c : ℝ) < 0 := not_lt.mpr c.cast_nonneg
  rw [ofNat_eq, ofNat_eq]
  show (if ((0 : ℕ) : ℝ) = 0 then (if (c : ℝ) = 0 then nan else inf (decide ((c : ℝ) < 0))) else _) = _
  rw [if_pos Nat.cast_zero, decide_eq_false hneg]
  simp only [Nat.cast_eq_zero]

theorem not_lt_nan (x : ExactReal) : ¬ F64.lt x nan = true := by
  simp [F64.lt, ExactReal.lt, ExactReal.le]

/-- The strategies whose factor is a quotient of counters. -/
def BaseSchedule.Divides (base : BaseSchedule) : Prop := base = .lin ∨ base = .quad

variable {base : BaseSchedule}

theorem boundScore_divides (h : base.Divides) (factor x : ExactReal) :
    boundScore (some base) factor x =
      if F64.lt (havocMaxMult * lit 100) (x * ((if F64.lt maxFactor factor then maxFactor else factor) / powerBeta))
      then havocMaxMult * lit 100
      else x * ((if F64.lt maxFactor factor then maxFactor else factor) / powerBeta) := by
  rcases h with rfl | rfl
  · rfl
  · rfl

theorem boundReal_divides (h : base.Divides) (factor b : ℝ) :
    boundReal (some base) factor b = b * min factor 32 := by
  rcases h with rfl | rfl
  · rfl
  · rfl

/-- The score for a quotient. It is not a number if both counters are zero. -/
theorem boundScore_quotient (h : base.Divides) (c d : ℕ) (b : ℝ) :
    boundScore (some base) (ofNat c / ofNat d) (fin b) =
      if d = 0 then if c = 0 then nan else fin (min (b * 32) 6400)
      else fin (min (b * min ((c : ℝ) / d) 32) 6400) := by
  by_cases hd : d = 0
  · subst hd
    rw [ofNat_div_zero, if_pos rfl, boundScore_divides h]
    by_cases hc : c = 0
    · have hnan : (fin b * (nan / powerBeta) : ExactReal) = nan := rfl
      rw [if_pos hc, if_pos hc, if_neg (not_lt_nan _), hnan, if_neg (not_lt_nan _)]
    have hcap : F64.lt (maxFactor : ExactReal) (inf false) = true := by
      rw [maxFactor_eq]
      simp [F64.lt, ExactReal.lt, ExactReal.le]
    rw [if_neg hc, if_neg hc, if_pos hcap, maxFactor_eq, div_powerBeta, fin_mul, havoc_eq, ite_lt_min]
  · rw [if_neg hd, ofNat_div c hd, boundScore_fin, boundReal_divides h]

/-! ### Every entry -/

/-- The strategy looks up how often the path of the entry was taken. -/
def ReadsCount (base : Option BaseSchedule) (entry : PowerEntry ExactReal) : Prop :=
  match base with
  | some .coe | some .lin | some .quad => True
  | some .fast => entry.scheduledCount ≠ 0
  | _ => False

/-- The factor `c / (hits + 1)` does not bring the score below one. -/
def Suffices (score : ExactReal) (c hits : ℕ) : Prop :=
  if (hits + 1) % 2 ^ 32 = 0 then c ≠ 0
  else ∃ b : ℝ, score = fin b ∧ 1 ≤ b * min ((c : ℝ) / ((hits + 1) % 2 ^ 32 : ℕ)) 32

section
variable (s : PowerState ExactReal) (entry : PowerEntry ExactReal) (psmeta : SchedulerMetadata ExactReal)
  (tcmeta : ScoreMeta) (qExecUs hits : ℕ) (mean : ExactReal)

/-- The power is computed: what it is computed from is there. -/
structure Scored : Prop where
  scheduler : s.scheduler = some psmeta
  mean_eq : meanOf s entry psmeta = .ok mean
  time : entry.execTime = some qExecUs
  entryMeta : entry.scheduler = some tcmeta
  count : ReadsCount psmeta.base entry → fuzzCount psmeta tcmeta = .ok hits

/-- The entry is not favoured, and its path was taken more often than the mean. -/
def Unwanted : Prop :=
  F64.lt mean (log2 (F64.ofNat hits)) = true ∧ entry.favored = false

/-- The bounds of a power. -/
def Bounded (base : Option BaseSchedule) (unwanted : Prop) (x : ExactReal) : Prop :=
  ∃ r : ℝ, x = fin r ∧ r ≤ 6400 ∧ (base ≠ some .coe → 1 ≤ r) ∧ (base = some .coe → (r = 0 ↔ unwanted))

/-- When the bounds hold. -/
def Guarded : Prop :=
  match psmeta.base with
  | some .coe => ¬ Unwanted entry hits mean
  | some .lin => Suffices (baseScore s entry psmeta tcmeta qExecUs) entry.scheduledCount hits
  | some .quad => Suffices (baseScore s entry psmeta tcmeta qExecUs)
      (entry.scheduledCount * entry.scheduledCount % 2 ^ 64) hits
  | _ => True

variable {unwanted : Prop}

theorem bounded_min {base : Option BaseSchedule} {x : ℝ} (hbase : base ≠ some .coe) :
    Bounded base unwanted (fin (min x 6400)) ↔ 1 ≤ x := by
  constructor
  · rintro ⟨r, hr, -, hlow, -⟩
    rw [← ExactReal.fin.inj hr] at hlow
    exact (hlow hbase).trans (min_le_left _ _)
  · intro hx
    exact ⟨_, rfl, min_le_right _ _, fun _ => le_min hx (by norm_num), fun h => absurd h hbase⟩

theorem bounded_quotient (hbase : base.Divides) {b : ℝ} (hb : 5 / 2 ≤ b) (c hits : ℕ) :
    Bounded (some base) unwanted (boundScore (some base) (ofNat c / ofNat ((hits + 1) % 2 ^ 32)) (fin b)) ↔
      Suffices (fin b) c hits := by
  have hcoe : some base ≠ some BaseSchedule.coe := by
    rcases hbase with rfl | rfl <;> simp
  rw [boundScore_quotient hbase, Suffices]
  generalize (hits + 1) % 2 ^ 32 = d
  split_ifs with hd hc
  · refine iff_of_false ?_ (fun h => h hc)
    rintro ⟨r, hr, -⟩
    cases hr
  · rw [bounded_min hcoe]
    exact iff_of_true (by linarith) hc
  · rw [bounded_min hcoe]
    constructor
    · exact fun h => ⟨b, rfl, h⟩
    · rintro ⟨b', hb', h⟩
      rwa [ExactReal.fin.inj hb']

variable {s entry psmeta tcmeta qExecUs hits mean}

theorem factorOf_fast (mean : ExactReal) (hbase : psmeta.base = some .fast)
    (hcount : entry.scheduledCount ≠ 0 → fuzzCount psmeta tcmeta = .ok hits) :
    ∃ x, factorOf entry psmeta tcmeta mean = .ok x ∧ AtLeast (2 / 5) x := by
  simp only [factorOf, hbase, strategyFactor]
  by_cases hzero : entry.scheduledCount ≠ 0
  · rw [if_pos hzero, hcount hzero]
    exact ⟨_, rfl, fastFactor_atLeast _ _⟩
  · rw [if_neg hzero]
    exact ⟨_, rfl, .lit (by norm_num)⟩

theorem factorOf_coe (entry : PowerEntry ExactReal) (mean : ExactReal)
    (hbase : psmeta.base = some .coe) (hcount : fuzzCount psmeta tcmeta = .ok hits) :
    ∃ x, factorOf entry psmeta tcmeta mean = .ok x ∧ AtLeast 0 x := by
  simp only [factorOf, hbase, strategyFactor, hcount, bind, Except.bind]
  refine ⟨_, rfl, ?_⟩
  split_ifs
  · exact .lit (by norm_num)
  · exact .lit (by norm_num)

/-- The guard lifts every score of `COE` to one, so that it is zero for no entry. -/
theorem bounded_coe (x : ℝ) :
    Bounded (some .coe) unwanted (fin (min (max x 1) 6400)) ↔ ¬ unwanted := by
  have hne : min (max x 1) 6400 ≠ 0 := by
    have hone : 1 ≤ min (max x 1) 6400 := le_min (le_max_right _ _) (by norm_num)
    linarith
  constructor
  · rintro ⟨r, hr, -, -, hzero⟩ hunwanted
    exact hne ((ExactReal.fin.inj hr).trans ((hzero rfl).mpr hunwanted))
  · intro hnot
    exact ⟨_, rfl, min_le_right _ _, fun h => absurd rfl h, fun _ => iff_of_false hne hnot⟩

theorem factorOf_quotient (hbase : psmeta.base = some base) {c : ℕ}
    (hquotient : ∀ hits, strategyFactor base entry mean (.ok hits) =
      .ok (ofNat c / ofNat ((hits + 1) % 2 ^ 32))) (hcount : fuzzCount psmeta tcmeta = .ok hits) :
    factorOf entry psmeta tcmeta mean = .ok (ofNat c / ofNat ((hits + 1) % 2 ^ 32)) := by
  simp only [factorOf, hbase, hcount, hquotient]

theorem usesMult_fin {f : ℝ} (hpos : 0 < f) (hfar : 1 / 10 ^ 12 < |f - 1|) :
    usesMult (fin f) = true := by
  have habs : abs (fin f - lit 1 : ExactReal) = fin |f - 1| := by
    rw [lit_eq, Rat.cast_one, fin_sub]
    show (if F64.lt (fin (f - 1)) (fin 0) then fin (-(f - 1)) else fin (f - 1)) = _
    by_cases hlt : f - 1 < 0
    · rw [if_pos ((lt_fin _ _).mpr hlt), abs_of_neg hlt]
    · rw [if_neg fun h => hlt ((lt_fin _ _).mp h), abs_of_nonneg (not_lt.mp hlt)]
  rw [usesMult, habs, Bool.and_eq_true, Bool.and_eq_true, lit_eq, lit_eq, lt_fin, lt_fin]
  refine ⟨⟨rfl, ?_⟩, ?_⟩
  · push_cast
    exact hfar
  · push_cast
    exact hpos

omit [F64 F] in
theorem metadata_eq_ok {α : Type} {name : String} {o : Option α} {a : α}
    (h : metadata name o = .ok a) :
    o = some a := by
  cases o with
  | none => cases h
  | some b =>
    cases h
    rfl

section
variable (h : Scored s entry psmeta tcmeta qExecUs hits mean)
include h

theorem power_eq {factor : ExactReal} (hfactor : factorOf entry psmeta tcmeta mean = .ok factor) :
    power s entry =
      .ok (boundScore psmeta.base factor (baseScore s entry psmeta tcmeta qExecUs)) := by
  simp only [power, metadata, testcaseMetadata, h.scheduler, h.mean_eq, h.time, h.entryMeta, hfactor, bind,
    Except.bind]
  rfl

theorem power_of_number {b : ℝ} (hb : baseScore s entry psmeta tcmeta qExecUs = fin b)
    {factor : ℝ} (hx : x = fin factor) (hfactor : factorOf entry psmeta tcmeta mean = .ok x) :
    power s entry = .ok (fin (min (boundReal psmeta.base factor b) 6400)) := by
  rw [power_eq h hfactor, hb, hx, boundScore_fin]

/-- The power comes out, and its bounds hold exactly if the condition of its strategy does. -/
theorem power_bounded : ∃ p, power s entry = .ok p ∧
      (Bounded psmeta.base (Unwanted entry hits mean) p ↔ Guarded s entry psmeta tcmeta qExecUs hits mean) := by
  have hlit : ∀ q : ℚ, (lit q : ExactReal) = fin q := lit_eq
  obtain ⟨b, hb, hle⟩ := baseScore_atLeast s entry psmeta tcmeta qExecUs
  have hcount := h.count
  unfold Guarded
  cases hbase : psmeta.base with
  | none =>
    have hpower := power_of_number h hb (hlit 1) (by rw [factorOf, hbase])
    rw [hbase] at hpower
    refine ⟨_, hpower, ?_⟩
    rw [bounded_min (by simp)]
    exact iff_of_true (show 1 ≤ b by linarith) trivial
  | some base =>
    rw [hbase] at hcount
    cases base with
    | explore =>
      have hpower := power_of_number h hb (hlit 1) (by rw [factorOf, hbase]; rfl)
      rw [hbase] at hpower
      refine ⟨_, hpower, ?_⟩
      rw [bounded_min (by simp)]
      exact iff_of_true (show 1 ≤ b by linarith) trivial
    | exploit =>
      have hpower := power_of_number h hb maxFactor_eq (by rw [factorOf, hbase]; rfl)
      rw [hbase] at hpower
      refine ⟨_, hpower, ?_⟩
      rw [bounded_min (by simp)]
      refine iff_of_true (show 1 ≤ b * min 32 32 from ?_) trivial
      rw [min_self]
      linarith
    | fast =>
      obtain ⟨x, hfactor, φ, hx, hφ⟩ := factorOf_fast mean hbase hcount
      have hpower := power_of_number h hb hx hfactor
      rw [hbase] at hpower
      refine ⟨_, hpower, ?_⟩
      rw [bounded_min (by simp)]
      refine iff_of_true (show 1 ≤ b * min φ 32 from ?_) trivial
      have hmin : 2 / 5 ≤ min φ 32 := le_min hφ (by norm_num)
      nlinarith
    | coe =>
      obtain ⟨x, hfactor, φ, hx, -⟩ := factorOf_coe entry mean hbase (hcount trivial)
      have hpower := power_of_number h hb hx hfactor
      rw [hbase] at hpower
      exact ⟨_, hpower, bounded_coe _⟩
    | lin | quad =>
      have hpower := power_eq h (factorOf_quotient hbase (fun _ => rfl) (hcount trivial))
      rw [hbase, hb] at hpower
      refine ⟨_, hpower, ?_⟩
      rw [hb]
      exact bounded_quotient (by simp [BaseSchedule.Divides]) hle _ _

/-- The factor of the feature stages is multiplied on last. -/
theorem computePower_eq {p : ExactReal} (hp : power s entry = .ok p) {f : ℝ} (hpos : 0 < f)
    (hfar : 1 / 10 ^ 12 < |f - 1|) (hmult : entry.externalPerfMult = some (fin f))
    (hmode : getFeatModeFromState s.toScoreState = 2 ∨ getFeatModeFromState s.toScoreState = 3)
    (hcrash : avoidsCrash psmeta = false) : computePower s entry = .ok (p * fin f) := by
  have havoid : ¬ (0 < entry.objectivesFound ∧ s.scheduler.any avoidsCrash = true) := by
    rw [h.scheduler, Option.any_some, hcrash]
    exact fun h => Bool.false_ne_true h.2
  simp only [computePower, hp, bind, Except.bind, if_pos hmode, hmult, if_pos (usesMult_fin hpos hfar), if_neg havoid]
  rfl

end

/-- A power is computed from what `Scored` lists. -/
theorem scored_of_power {p : ExactReal} (hp : power s entry = .ok p) :
    ∃ psmeta tcmeta qExecUs hits mean, Scored s entry psmeta tcmeta qExecUs hits mean := by
  obtain ⟨psmeta, hscheduler, hp⟩ := Result.bind_eq_ok.mp hp
  obtain ⟨mean, hmean, hp⟩ := Result.bind_eq_ok.mp hp
  cases htime : entry.execTime with
  | none =>
    rw [htime] at hp
    cases hp
  | some qExecUs =>
    rw [htime] at hp
    obtain ⟨tcmeta, hentry, hp⟩ := Result.bind_eq_ok.mp hp
    obtain ⟨factor, hfactor, -⟩ := Result.bind_eq_ok.mp hp
    -- where the lookup fails the strategy does not make it
    obtain ⟨hits, hcount⟩ : ∃ hits, ReadsCount psmeta.base entry → fuzzCount psmeta tcmeta = .ok hits := by
      cases hlookup : fuzzCount psmeta tcmeta with
      | ok hits => exact ⟨hits, fun _ => rfl⟩
      | error e =>
        refine ⟨0, fun hreads => ?_⟩
        rw [factorOf, hlookup] at hfactor
        cases hbase : psmeta.base with
        | none =>
          rw [hbase] at hreads
          exact hreads.elim
        | some base =>
          rw [hbase] at hreads hfactor
          cases base with
          | explore | exploit => exact hreads.elim
          | fast =>
            simp only [strategyFactor, if_pos (show entry.scheduledCount ≠ 0 from hreads)] at hfactor
            cases hfactor
          | coe | lin | quad => cases hfactor
    exact ⟨psmeta, tcmeta, qExecUs, hits, mean, metadata_eq_ok hscheduler, hmean, htime,
      metadata_eq_ok hentry, hcount⟩

/-- Every power is at most 6400, not below one unless its strategy is `COE`, and for `COE` zero for
    the unwanted entries only, exactly if its strategy's condition holds; and the factor of the
    feature stages is multiplied on. -/
theorem power_bounds_iff (s : PowerState ExactReal) (entry : PowerEntry ExactReal)
    (psmeta : SchedulerMetadata ExactReal) (tcmeta : ScoreMeta) (qExecUs hits : ℕ)
    (mean : ExactReal) (h : Scored s entry psmeta tcmeta qExecUs hits mean) :
    ∃ p, power s entry = .ok p ∧
      (Bounded psmeta.base (Unwanted entry hits mean) p ↔ Guarded s entry psmeta tcmeta qExecUs hits mean) ∧
      ∀ f : ℝ, 0 < f → 1 / 10 ^ 12 < |f - 1| → entry.externalPerfMult = some (fin f) →
        (getFeatModeFromState s.toScoreState = 2 ∨ getFeatModeFromState s.toScoreState = 3) →
        avoidsCrash psmeta = false → computePower s entry = .ok (p * fin f) := by
  obtain ⟨p, hp, hbounded⟩ := power_bounded h
  exact ⟨p, hp, hbounded, fun f hpos hfar hmult hmode hcrash => computePower_eq h hp hpos hfar hmult hmode hcrash⟩

end

namespace Demo

/-- Two entries, whose paths were taken four times and once. -/
noncomputable def powerState (base : BaseSchedule) : PowerState ExactReal where
  scheduler := some ⟨some { base }, 4, 4, fin 1, 1, [4, 1]⟩
  topRateds := none
  featMode := some 2
  bitmapSize := 2
  corpus := [(0, some ⟨2, 0⟩), (1, some ⟨2, 1⟩)]
  current := some 0

/-- The first of the entries, favoured or not, and not scheduled so far. -/
def powerEntry (favored : Bool) : PowerEntry ExactReal where
  scheduledCount := 0
  execTime := some 1
  scheduler := some ⟨2, 0⟩
  favored
  mapIndexes := none
  objectivesFound := 0
  externalPerfMult := some (fin ((2 : ℕ) : ℝ))
  depth := 0
  handicap := 0

/-- The mean of the logarithms of the two counts. -/
noncomputable def mean (base : BaseSchedule) : ExactReal :=
  match base with
  | .coe => (lit 0 + log2 (ofNat 4) + log2 (ofNat 1)) / ofNat 2
  | _ => lit 0

theorem scored (base : BaseSchedule) (favored : Bool) :
    Scored (powerState base) (powerEntry favored)
    ⟨some { base }, 4, 4, fin 1, 1, [4, 1]⟩ ⟨2, 0⟩ 1 4 (mean base) where
  scheduler := rfl
  mean_eq := by cases base <;> rfl
  time := rfl
  entryMeta := rfl
  count := fun _ => rfl

theorem unwanted : Unwanted (powerEntry false) 4 (mean .coe) := by
  refine ⟨?_, rfl⟩
  have hlog : 0 < Real.log 4 / Real.log 2 := div_pos (Real.log_pos (by norm_num)) log_two_pos
  have hfour : log2 (ofNat 4 : ExactReal) = fin (Real.log 4 / Real.log 2) := by
    rw [ofNat_eq, log2_fin (by norm_num)]
    norm_num
  have hone : log2 (ofNat 1 : ExactReal) = fin 0 := by
    rw [ofNat_eq, log2_fin (by norm_num)]
    norm_num
  rw [mean, hfour, hone, lit_eq, ofNat_eq, fin_add, fin_add, fin_div _ (by norm_num), lt_fin]
  push_cast
  linarith

end Demo

/-- A favoured entry under `EXPLORE`, and under `COE`, which would not want it otherwise. -/
theorem power_bounds_demo :
    (∃ p, power (Demo.powerState .explore) (Demo.powerEntry true) = .ok p ∧
      Bounded (some .explore) (Unwanted (Demo.powerEntry true) 4 (lit 0)) p) ∧
    ∃ p, power (Demo.powerState .coe) (Demo.powerEntry true) = .ok p ∧
      Bounded (some .coe) (Unwanted (Demo.powerEntry true) 4 (Demo.mean .coe)) p ∧
      computePower (Demo.powerState .coe) (Demo.powerEntry true) = .ok (p * fin ((2 : ℕ) : ℝ)) := by
  obtain ⟨p, hp, hbounded, -⟩ := power_bounds_iff _ _ _ _ _ _ _ (Demo.scored .explore true)
  obtain ⟨q, hq, hbounded', hmult⟩ := power_bounds_iff _ _ _ _ _ _ _ (Demo.scored .coe true)
  exact ⟨⟨p, hp, hbounded.mpr trivial⟩, q, hq, hbounded'.mpr fun h => Bool.noConfusion h.2,
    hmult _ (by norm_num) (by norm_num) rfl (.inl rfl) rfl⟩

/-- Under `COE` an unwanted entry has a power that is not zero; under `LIN` an entry that has not
    been scheduled has a power below one. -/
theorem power_out_of_bounds :
    (∃ r : ℝ, power (Demo.powerState .coe) (Demo.powerEntry false) = .ok (fin r) ∧ r ≠ 0 ∧
      Unwanted (Demo.powerEntry false) 4 (Demo.mean .coe)) ∧
    ∃ r : ℝ, power (Demo.powerState .lin) (Demo.powerEntry false) = .ok (fin r) ∧ r < 1 := by
  constructor
  · have h := Demo.scored .coe false
    obtain ⟨b, hb, -⟩ := baseScore_atLeast (Demo.powerState .coe) (Demo.powerEntry false) _ _ _
    obtain ⟨x, hfactor, φ, hx, -⟩ := factorOf_coe (Demo.powerEntry false) (Demo.mean .coe) rfl (h.count trivial)
    refine ⟨_, power_of_number h hb hx hfactor, ?_, Demo.unwanted⟩
    have hone : (1 : ℝ) ≤ min (max (b * min φ 32) 1) 6400 := le_min (le_max_right _ _) (by norm_num)
    exact (lt_of_lt_of_le one_pos hone).ne'
  · have h := Demo.scored .lin false
    obtain ⟨b, hb, -⟩ := baseScore_atLeast (Demo.powerState .lin) (Demo.powerEntry false) _ _ _
    have hpower := power_eq h (factorOf_quotient rfl (fun _ => rfl) (h.count trivial))
    rw [hb] at hpower
    refine ⟨_, hpower.trans (congrArg Except.ok (boundScore_quotient (.inl rfl) 0 5 b)), ?_⟩
    norm_num

end

end Bofuzz.Weighted
