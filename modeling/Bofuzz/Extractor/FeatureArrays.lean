import Bofuzz.Extractor.Voronoi
import Bofuzz.Metadata

/-! The feature arrays that the extractor exports (`static_analysis/features_extractor.py`).

    The attributes of the blocks are scaled into the unit interval, summed over the region of every
    sancov site, and the sums of each feature are scaled again. Arithmetic is exact: a finite float
    is a number of the ordered field `K`, one that is not finite is `none`. The logarithm is the
    parameter `log1p`. -/

namespace Bofuzz.Extractor
open List

variable {K : Type} [Field K] [LinearOrder K]

/-! ### Attributes -/

/-- The names of the features, in the order of the schema. -/
def attrNames : List String :=
  ["bb_instruction_count", "numeric_immediate_count", "string_literal_ref_count",
   "const_data_ref_count", "cmp_inst_count", "arith_bitwise_count", "mem_inst_count", "call_count",
   "cfg_in_degree", "cfg_out_degree", "static_descendant_count", "static_ancestor_count",
   "entry_depth", "loop_nesting_depth", "loop_boundary_flag", "centrality"]

def rawBinaryFeatures : List String := ["loop_boundary_flag"]

def normalizationEps : K := 1e-6

def finiteOrZero (x : Option K) : K := x.getD 0

/-- The attributes of a basic block, before and after scaling. -/
structure Block (K : Type) where
  rawAttrs : Dict String (Option K) := ∅
  normAttrs : Dict String (Option K) := ∅

/-- The dictionary of the blocks by start address, as the list of its items. -/
abbrev Blocks (K : Type) := List (ℕ × Block K)

inductive SignalSource where | raw | norm
  deriving DecidableEq

namespace Block

variable (b : Block K) (name : String)

def getRawAttr : Option K := (b.rawAttrs.lookup name).getD (some 0)

def getNormAttr : Option K := (b.normAttrs.lookup name).getD (some 0)

def setRawAttr (v : K) : Block K :=
  { b with rawAttrs := b.rawAttrs.insert name (some v) }

def setNormAttr (v : K) : Block K :=
  { b with normAttrs := b.normAttrs.insert name (some v) }

/-- The attribute that an aggregation reads. -/
def signal (source : SignalSource) (name : String) : Option K :=
  match source with
  | .raw => b.getRawAttr name
  | .norm => b.getNormAttr name

end Block

/-- The errors of the export, with the value at fault where the text names it. -/
inductive ExportError (K : Type) where
  | missingBlock (ea : ℕ)
  | aggregation (total : K)
  | negativeNormalized (name : String) (v : K)
  | normalizedExceeds (name : String) (v : K)
  | keysMismatch
  | missingArray (name : String)
  | lengthMismatch (name : String) (got expected : ℕ)
  | negativeValue (name : String) (i : ℕ) (v : K)
  | valueExceeds (name : String) (i : ℕ) (v : K)

/-- The text of an error, for a way to print numbers. -/
def ExportError.text (str : K → String) : ExportError K → String
  | missingBlock ea => s!"{ea}"
  | aggregation total => "invalid Voronoi sum aggregation value: " ++ str total
  | negativeNormalized name v => s!"negative normalized feature forbidden: {name}=" ++ str v
  | normalizedExceeds name v => s!"normalized feature exceeds [0,1]: {name}=" ++ str v
  | keysMismatch => "exported feature map keys do not match ATTR_NAMES"
  | missingArray name => s!"missing feature array: {name}"
  | lengthMismatch name got expected =>
    s!"feature array length mismatch for {name}: got {got}, expected {expected}"
  | negativeValue name i v =>
    s!"negative runtime feature forbidden under simplex mode: {name}[{i}]=" ++ str v
  | valueExceeds name i v => s!"runtime feature exceeds [0,1]: {name}[{i}]=" ++ str v

/-! ### Scaling -/

/-- Logarithms between their least and their greatest value. -/
def minmax (ts : List K) : List K :=
  match ts with
  | [] => []
  | t :: rest =>
    let lo := rest.foldl min t
    let hi := rest.foldl max t
    let span := hi - lo
    if span ≤ normalizationEps then ts.map fun _ => 0
    else ts.map fun t => min 1 (max 0 ((t - lo) / span))

variable (log1p : K → K)

/-- `_normalize_nonnegative_log1p_minmax_feature`. -/
def normalizeFeature (name : String) (rawValues : List (Option K)) : List K :=
  let xs := rawValues.map fun x => max 0 (finiteOrZero x)
  if name ∈ rawBinaryFeatures then xs.map fun x => if 0 < x then 1 else 0
  else minmax (xs.map log1p)

/-- Store one scaled attribute in its block. -/
def storeNormalized (name : String) (item : (ℕ × Block K) × K) :
    Except (ExportError K) (ℕ × Block K) :=
  if item.2 < 0 then .error (.negativeNormalized name item.2)
  else if 1 + normalizationEps < item.2 then .error (.normalizedExceeds name item.2)
  else .ok (item.1.1, item.1.2.setNormAttr name item.2)

variable (blocks : Blocks K)

def normalizeBlocksFor (name : String) : Except (ExportError K) (Blocks K) :=
  let norm := normalizeFeature log1p name (blocks.map fun b => b.2.getRawAttr name)
  (blocks.zip norm).mapM (storeNormalized name)

def normalizeBlocks : Except (ExportError K) (Blocks K) :=
  attrNames.foldlM (normalizeBlocksFor log1p) blocks

/-! ### Aggregation -/

section
variable {n : ℕ}

/-- The sum of the values of a region. -/
def aggregateVoronoiRegion (valuesByNode : Fin n → K) (regionNodes : List (Fin n)) :
    Except (ExportError K) K :=
  if regionNodes = [] then .ok 0
  else
    let total := regionNodes.foldl (fun total node => total + max 0 (valuesByNode node)) 0
    if total < 0 then .error (.aggregation total) else .ok total

/-- The node of a site, if it is mapped to a block. -/
def siteNode (seeds : List (Seed n)) (sancovIndex : ℕ) : Option (Fin n) :=
  (seeds.reverse.find? fun seed => seed.sancovIndex = sancovIndex).bind (·.nodeIndex)

/-- The raw value of a site: the sum over its region. -/
def siteValue (valuesByNode : Fin n → K) (seeds : List (Seed n)) (regions : Regions n)
    (sancovIndex : ℕ) : Except (ExportError K) K :=
  match siteNode seeds sancovIndex with
  | none => .ok 0
  | some node =>
    if regions.regionsBySancov sancovIndex = [] then .ok (valuesByNode node)
    else aggregateVoronoiRegion valuesByNode (regions.regionsBySancov sancovIndex)

end

variable (order : List ℕ)

/-- The values of a feature by node. -/
def nodeValues (source : SignalSource) (name : String) :
    Except (ExportError K) (Fin order.length → K) :=
  match order.find? fun ea => (blocks.lookup ea).isNone with
  | some ea => .error (.missingBlock ea)
  | none => .ok fun node =>
      finiteOrZero (((blocks.lookup (order.get node)).getD {}).signal source name)

/-- The raw values of all sites. -/
def regionSums (seeds : List (Seed order.length))
    (regions : Regions order.length) (source : SignalSource) (name : String) :
    Except (ExportError K) (List K) :=
  match nodeValues blocks order source name with
  | .error e => .error e
  | .ok values => (List.range seeds.length).mapM (siteValue values seeds regions)

/-- `build_voronoi_runtime_feature_arrays`: for every feature the scaled sums. -/
def buildVoronoiRuntimeFeatureArrays
    (seeds : List (Seed order.length)) (regions : Regions order.length) (source : SignalSource) :
    List FeatureSpec → Dict String (List K) → Except (ExportError K) (Dict String (List K))
  | [], arrays => .ok arrays
  | spec :: specs, arrays =>
    match regionSums blocks order seeds regions source spec.name with
    | .error e => .error e
    | .ok sums =>
      buildVoronoiRuntimeFeatureArrays seeds regions source specs
        (arrays.insert spec.name (normalizeFeature log1p spec.name (sums.map some)))

/-! ### The exporter's own check -/

/-- The values of an array, counting indexes from `i`; an exact number is finite. -/
def checkValues (name : String) : ℕ → List K → Except (ExportError K) Unit
  | _, [] => .ok ()
  | i, v :: vs =>
    if v < 0 then .error (.negativeValue name i v)
    else if 1 + normalizationEps < v then .error (.valueExceeds name i v)
    else checkValues name (i + 1) vs

def checkArrays (arrays : Dict String (List K)) (sites : ℕ) :
    List String → Except (ExportError K) Unit
  | [] => .ok ()
  | name :: names =>
    match arrays.lookup name with
    | none => .error (.missingArray name)
    | some arr =>
      if arr.length ≠ sites then .error (.lengthMismatch name arr.length sites)
      else
        match checkValues name 0 arr with
        | .error e => .error e
        | .ok () => checkArrays arrays sites names

def validateExportedMaps (arrays : Dict String (List K)) (sites : ℕ) :
    Except (ExportError K) Unit :=
  if !(arrays.keys.all (· ∈ attrNames) && attrNames.all (· ∈ arrays.keys)) then
    .error .keysMismatch
  else checkArrays arrays sites attrNames

/-! ### Scaling keeps the order -/

omit [Field K] in
theorem foldl_min_isLeast (ts : List K) (t : K) :
    ts.foldl min t ∈ t :: ts ∧ ∀ x ∈ t :: ts, ts.foldl min t ≤ x :=
  min?_eq_some_iff.mp min?_cons'

variable [IsStrictOrderedRing K]

theorem normalizationEps_pos : (0 : K) < normalizationEps := by
  unfold normalizationEps
  positivity

/-- What the scaling of a list is: a function into the unit interval that keeps the order of what
    is not negative, and that maps zero to zero if the list has a zero. -/
structure Scales (xs : List K) (f : K → K) : Prop where
  mono : ∀ x y, 0 ≤ x → x ≤ y → f x ≤ f y
  nonneg : ∀ x, 0 ≤ f x
  le_one : ∀ x, f x ≤ 1
  zero : 0 ∈ xs → f 0 = 0

theorem binary_scales (xs : List K) : Scales xs fun x => if 0 < x then 1 else 0 := by
  refine ⟨fun x y _ hxy => ?_, fun x => ?_, fun x => ?_, fun _ => ?_⟩
  · split_ifs with hx hy
    · exact le_rfl
    · exact absurd (hx.trans_le hxy) hy
    · exact zero_le_one
    · exact le_rfl
  · split_ifs
    · exact zero_le_one
    · exact le_rfl
  · split_ifs
    · exact le_rfl
    · exact zero_le_one
  · simp

variable {log1p : K → K}

theorem minmax_scales (hmono : StrictMonoOn log1p (Set.Ici 0)) (hzero : log1p 0 = 0) (xs : List K)
    (hxs : ∀ x ∈ xs, 0 ≤ x) : ∃ f, Scales xs f ∧ minmax (xs.map log1p) = xs.map f := by
  cases xs with
  | nil => exact ⟨fun _ => 0, ⟨by simp, by simp, by simp, by simp⟩, rfl⟩
  | cons x xs =>
    rw [map_cons, minmax]
    generalize hlo : (xs.map log1p).foldl min (log1p x) = lo
    generalize (xs.map log1p).foldl max (log1p x) - lo = span
    split_ifs with hspan
    · refine ⟨fun _ => 0, ⟨by simp, by simp, by simp, by simp⟩, ?_⟩
      rw [← map_cons, map_map]
      rfl
    · have hpos : 0 < span := normalizationEps_pos.trans (not_le.mp hspan)
      refine ⟨fun y => min 1 (max 0 ((log1p y - lo) / span)),
        ⟨fun y z hy hyz => ?_, fun y => ?_, fun y => min_le_left _ _, fun hmem => ?_⟩, ?_⟩
      · have hlog : log1p y ≤ log1p z := hmono.monotoneOn hy (hy.trans hyz) hyz
        have hdiv : (log1p y - lo) / span ≤ (log1p z - lo) / span :=
          div_le_div_of_nonneg_right (sub_le_sub_right hlog lo) hpos.le
        exact min_le_min_left 1 (max_le_max_left 0 hdiv)
      · exact le_min zero_le_one (le_max_left _ _)
      · -- the least logarithm is that of the zero
        have hlow : lo ≤ 0 := by
          rw [← hlo, ← hzero]
          exact (foldl_min_isLeast _ _).2 _ (by simpa using mem_map_of_mem hmem)
        have hnonneg : 0 ≤ lo := by
          have hmem : lo ∈ (x :: xs).map log1p := by
            rw [← hlo]
            exact (foldl_min_isLeast _ _).1
          obtain ⟨y, hy, rfl⟩ := mem_map.mp hmem
          rw [← hzero]
          exact hmono.monotoneOn Set.self_mem_Ici (hxs y hy) (hxs y hy)
        rw [hzero, le_antisymm hlow hnonneg]
        simp
      · rw [← map_cons, map_map]
        rfl

theorem normalizeFeature_scales (hmono : StrictMonoOn log1p (Set.Ici 0)) (hzero : log1p 0 = 0)
    (name : String) (rawValues : List (Option K)) :
    ∃ f, Scales (rawValues.map fun x => max 0 (finiteOrZero x)) f ∧
      normalizeFeature log1p name rawValues = rawValues.map fun x => f (max 0 (finiteOrZero x)) := by
  rw [normalizeFeature]
  split_ifs with hbinary
  · exact ⟨_, binary_scales _, map_map⟩
  have hnonneg : ∀ x ∈ rawValues.map fun x => max 0 (finiteOrZero x), 0 ≤ x :=
    forall_mem_map.mpr fun _ _ => le_max_left _ _
  obtain ⟨f, hf, heq⟩ := minmax_scales hmono hzero _ hnonneg
  exact ⟨f, hf, heq.trans map_map⟩

end Bofuzz.Extractor
