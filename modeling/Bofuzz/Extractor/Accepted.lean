import Bofuzz.Extractor.FeatureArrays
import Bofuzz.FeatureMapFile

/-! What the extractor writes, the fuzzer accepts (`features_extractor.py`, `features_map.rs`).

    The exporter and the loader state the format of the feature map independently of each other:
    the names and aliases of the schema, the keys of the map, the lengths and the range of its
    arrays. They agree on every program. -/

namespace Bofuzz.Extractor
open List

/-! ### The schema -/

def featureIds : List String :=
  ["I00", "I01", "I02", "I03", "I04", "I05", "I06", "I07",
   "S00", "S01", "S02", "S03", "S04", "S05", "S06", "S07"]

/-- `_build_runtime_schema`. -/
def buildRuntimeSchema : FeatureSchemaFile where
  schemaVersion := 4
  features := (featureIds.zip attrNames).map fun entry =>
    { id := entry.1
      name := entry.2
      group := some (if entry.1.toList.head? = some 'I' then "instruction" else "structural")
      aliases := if entry.2 = "centrality" then some ["betweenness"] else none }

theorem buildRuntimeSchema_names : buildRuntimeSchema.features.map (·.name) = attrNames := rfl

theorem loadAndValidateSchema_runtime :
    loadAndValidateSchema buildRuntimeSchema = .ok buildRuntimeSchema := by
  rfl

theorem attrNames_allowed : ∀ name ∈ attrNames, name ∉ "features" :: legacyKeys := by
  decide

/-! ### The map -/

/-- Numbers without rounding; all of them are finite. -/
local instance exactRanged {K : Type} [Field K] [LinearOrder K] : Ranged K where
  isFinite _ := true
  isNegative v := decide (v < 0)
  exceedsOne v := decide (1 + 1e-6 < v)

section
variable {K : Type}

/-- The JSON object of the arrays. -/
def exportJson (arrays : Dict String (List K)) : JsonMap K where
  entries := arrays.entries.map fun e => ⟨e.1, .array (e.2.map some)⟩
  nodupKeys := by
    have hkeys : (arrays.entries.map fun e => (⟨e.1, .array (e.2.map some)⟩ :
        Sigma fun _ : String => JsonField K)).keys = arrays.entries.keys := by
      rw [List.keys, List.map_map]
      rfl
    unfold List.NodupKeys
    rw [hkeys]
    exact arrays.nodupKeys

theorem exportJson_keys (arrays : Dict String (List K)) :
    (exportJson arrays).keys = arrays.keys := by
  rw [AList.keys, AList.keys, exportJson, keys, keys, map_map]
  rfl

theorem lookup_exportJson {arrays : Dict String (List K)} {name : String} {arr : List K}
    (h : arrays.lookup name = some arr) :
    (exportJson arrays).lookup name = some (.array (arr.map some)) := by
  have hmem : ⟨name, arr⟩ ∈ arrays.entries := AList.mem_lookup_iff.mp h
  exact AList.mem_lookup_iff.mpr (mem_map.mpr ⟨_, hmem, rfl⟩)

end

variable {K : Type} [Field K] [LinearOrder K] [IsStrictOrderedRing K]

/-! ### The sums -/

section
variable {n : ℕ}

theorem aggregateVoronoiRegion_ok (valuesByNode : Fin n → K) (regionNodes : List (Fin n)) :
    ∃ total, aggregateVoronoiRegion valuesByNode regionNodes = .ok total := by
  have hnonneg : 0 ≤ regionNodes.foldl (fun total node => total + max 0 (valuesByNode node)) 0 :=
    foldlRecOn _ _ le_rfl fun total htotal node _ => add_nonneg htotal (le_max_left _ _)
  rw [aggregateVoronoiRegion]
  split_ifs
  · exact ⟨0, rfl⟩
  · rw [if_neg (not_lt.mpr hnonneg)]
    exact ⟨_, rfl⟩

theorem siteValue_ok (valuesByNode : Fin n → K) (seeds : List (Seed n)) (regions : Regions n)
    (sancovIndex : ℕ) : ∃ v, siteValue valuesByNode seeds regions sancovIndex = .ok v ∧
      (siteNode seeds sancovIndex = none → v = 0) := by
  rw [siteValue]
  split
  · exact ⟨0, rfl, fun _ => rfl⟩
  · next node hnode =>
    split_ifs
    · exact ⟨_, rfl, fun h => by rw [h] at hnode; cases hnode⟩
    · obtain ⟨total, htotal⟩ :=
        aggregateVoronoiRegion_ok valuesByNode (regions.regionsBySancov sancovIndex)
      exact ⟨total, htotal, fun h => by rw [h] at hnode; cases hnode⟩

end

omit [Field K] [LinearOrder K] [IsStrictOrderedRing K] in
theorem lookup_isSome_of_mem {blocks : Blocks K} {ea : ℕ} (h : ea ∈ blocks.map Prod.fst) :
    (blocks.lookup ea).isSome := by
  obtain ⟨b, hb, rfl⟩ := mem_map.mp h
  exact lookup_isSome_iff.mpr ⟨b, hb, beq_self_eq_true _⟩

variable (blocks : Blocks K)

omit [LinearOrder K] [IsStrictOrderedRing K] in
theorem nodeValues_ok (source : SignalSource) (name : String) :
    ∃ values, nodeValues blocks (nodeOrder (blocks.map Prod.fst)) source name = .ok values := by
  have hnone : (nodeOrder (blocks.map Prod.fst)).find? (fun ea => (blocks.lookup ea).isNone)
      = none := by
    rw [find?_eq_none]
    intro ea hea
    have hmem : ea ∈ blocks.map Prod.fst := (mem_insertionSort _).mp hea
    simpa [← Option.isSome_iff_ne_none] using lookup_isSome_of_mem hmem
  rw [nodeValues, hnone]
  exact ⟨_, rfl⟩

/-- The number of nodes of the ACFG. -/
abbrev Blocks.nodes : ℕ := (nodeOrder (blocks.map Prod.fst)).length

theorem regionSums_ok (seeds : List (Seed blocks.nodes))
    (regions : Regions blocks.nodes) (source : SignalSource) (name : String) :
    ∃ sums, regionSums blocks _ seeds regions source name = .ok sums ∧ sums.length = seeds.length ∧
      ∀ i < seeds.length, siteNode seeds i = none → sums[i]? = some 0 := by
  obtain ⟨values, hvalues⟩ := nodeValues_ok blocks source name
  choose f hf hzero using siteValue_ok values seeds regions
  have hpure : siteValue values seeds regions = fun i => pure (f i) := funext hf
  refine ⟨(range seeds.length).map f, ?_, by simp, fun i hi hnode => ?_⟩
  · rw [regionSums, hvalues]
    simp only [hpure, mapM_pure]
    rfl
  · rw [getElem?_map, getElem?_range hi, Option.map_some, hzero i hnode]

/-! ### The arrays -/

/-- What holds of the array made from the sums of a feature: it keeps their order and their zeros,
    and lies in the unit interval. -/
structure KeepsOrder (sums arr : List K) : Prop where
  length : arr.length = sums.length
  mono : ∀ (i j : ℕ) (x y : K), sums[i]? = some x → sums[j]? = some y → x ≤ y →
    ∃ v w, arr[i]? = some v ∧ arr[j]? = some w ∧ v ≤ w
  zero : ∀ i : ℕ, sums[i]? = some 0 → arr[i]? = some 0
  range : ∀ v ∈ arr, 0 ≤ v ∧ v ≤ 1

variable {log1p : K → K}

theorem normalizeFeature_keepsOrder (hmono : StrictMonoOn log1p (Set.Ici 0)) (hzero : log1p 0 = 0)
    (name : String) (sums : List K) :
    KeepsOrder sums (normalizeFeature log1p name (sums.map some)) := by
  obtain ⟨f, hf, heq⟩ := normalizeFeature_scales hmono hzero name (sums.map some)
  have hmap : normalizeFeature log1p name (sums.map some) = sums.map fun x => f (max 0 x) := by
    rw [heq, map_map]
    rfl
  rw [hmap]
  refine ⟨by simp, fun i j x y hx hy hxy => ?_, fun i hi => ?_,
    forall_mem_map.mpr fun _ _ => ⟨hf.nonneg _, hf.le_one _⟩⟩
  · refine ⟨f (max 0 x), f (max 0 y), by simp [hx], by simp [hy], ?_⟩
    exact hf.mono _ _ (le_max_left _ _) (max_le_max_left 0 hxy)
  · have hmem : (0 : K) ∈ sums := mem_of_getElem? hi
    have hmem' : (0 : K) ∈ (sums.map some).map fun x => max 0 (finiteOrZero x) := by
      rw [map_map]
      exact mem_map.mpr ⟨0, hmem, max_self 0⟩
    rw [getElem?_map, hi, Option.map_some, max_self, hf.zero hmem']

omit [IsStrictOrderedRing K] in
theorem buildArrays_ok (log1p : K → K) {blocks : Blocks K} {order : List ℕ}
    {seeds : List (Seed order.length)} {regions : Regions order.length} {source : SignalSource}
    {sums : String → List K}
    (hsums : ∀ name, regionSums blocks order seeds regions source name = .ok (sums name)) :
    ∀ (specs : List FeatureSpec) (arrays : Dict String (List K)), ∃ arrays',
      buildVoronoiRuntimeFeatureArrays log1p blocks order seeds regions source specs arrays = .ok arrays' ∧
      ∀ name, arrays'.lookup name = if name ∈ specs.map (·.name) then
        some (normalizeFeature log1p name ((sums name).map some)) else arrays.lookup name
  | [], arrays => ⟨arrays, rfl, fun _ => rfl⟩
  | spec :: specs, arrays => by
    obtain ⟨arrays', hbuild, hlookup⟩ := buildArrays_ok log1p hsums specs
      (arrays.insert spec.name (normalizeFeature log1p spec.name ((sums spec.name).map some)))
    refine ⟨arrays', by rw [buildVoronoiRuntimeFeatureArrays, hsums]; exact hbuild, fun name => ?_⟩
    rw [hlookup]
    by_cases hname : name = spec.name
    · subst hname
      simp
    · simp [hname]

theorem le_one_add_eps {v : K} (h : v ≤ 1) : v ≤ 1 + normalizationEps :=
  h.trans (le_add_of_nonneg_right normalizationEps_pos.le)

theorem checkValues_ok {name : String} {vs : List K} (h : ∀ v ∈ vs, 0 ≤ v ∧ v ≤ 1) (i : ℕ) :
    checkValues name i vs = .ok () := by
  induction vs generalizing i with
  | nil => rfl
  | cons v vs ih =>
    obtain ⟨hnonneg, hone⟩ := h v mem_cons_self
    rw [checkValues, if_neg (not_lt.mpr hnonneg), if_neg (not_lt.mpr (le_one_add_eps hone))]
    exact ih (fun w hw => h w (.tail _ hw)) (i + 1)

theorem checkArrays_ok {arrays : Dict String (List K)} {sites : ℕ} {names : List String}
    (h : ∀ name ∈ names, ∃ arr, arrays.lookup name = some arr ∧ arr.length = sites ∧
      ∀ v ∈ arr, 0 ≤ v ∧ v ≤ 1) : checkArrays arrays sites names = .ok () := by
  induction names with
  | nil => rfl
  | cons name names ih =>
    obtain ⟨arr, hlookup, hlen, hrange⟩ := h name mem_cons_self
    rw [checkArrays, hlookup]
    simp only [hlen, ne_eq, not_true, if_false, checkValues_ok hrange]
    exact ih fun other hother => h other (.tail _ hother)

theorem inRange_of_unit {vs : List K} (h : ∀ v ∈ vs, 0 ≤ v ∧ v ≤ 1) : InRange vs := by
  intro v hv
  obtain ⟨hnonneg, hone⟩ := h v hv
  exact ⟨rfl, decide_eq_false (not_lt.mpr hnonneg), decide_eq_false (not_lt.mpr (le_one_add_eps hone))⟩

/-! ### The blocks -/

theorem normalizeBlocksFor_ok (hmono : StrictMonoOn log1p (Set.Ici 0)) (hzero : log1p 0 = 0)
    (blocks : Blocks K) (name : String) :
    ∃ blocks', normalizeBlocksFor log1p blocks name = .ok blocks' ∧
      blocks'.map Prod.fst = blocks.map Prod.fst := by
  obtain ⟨f, hf, heq⟩ :=
    normalizeFeature_scales hmono hzero name (blocks.map fun b => b.2.getRawAttr name)
  have hzip : blocks.zip (normalizeFeature log1p name (blocks.map fun b => b.2.getRawAttr name))
      = blocks.map fun b => (b, f (max 0 (finiteOrZero (b.2.getRawAttr name)))) := by
    rw [heq, map_map]
    exact map_prod_left_eq_zip.symm
  have hstore : (storeNormalized name ∘ fun b : ℕ × Block K =>
      (b, f (max 0 (finiteOrZero (b.2.getRawAttr name))))) = fun b =>
      pure (b.1, b.2.setNormAttr name (f (max 0 (finiteOrZero (b.2.getRawAttr name))))) := by
    funext b
    rw [Function.comp, storeNormalized, if_neg (not_lt.mpr (hf.nonneg _)),
      if_neg (not_lt.mpr (le_one_add_eps (hf.le_one _)))]
    rfl
  refine ⟨blocks.map fun b =>
    (b.1, b.2.setNormAttr name (f (max 0 (finiteOrZero (b.2.getRawAttr name))))), ?_, ?_⟩
  · rw [normalizeBlocksFor]
    simp only [hzip, mapM_map, hstore, mapM_pure]
    rfl
  · rw [map_map]
    rfl

theorem normalizeBlocks_ok (hmono : StrictMonoOn log1p (Set.Ici 0)) (hzero : log1p 0 = 0)
    (blocks : Blocks K) : ∃ blocks', normalizeBlocks log1p blocks = .ok blocks' ∧
      blocks'.map Prod.fst = blocks.map Prod.fst := by
  unfold normalizeBlocks
  generalize attrNames = names
  induction names generalizing blocks with
  | nil => exact ⟨blocks, rfl, rfl⟩
  | cons name names ih =>
    obtain ⟨blocks₁, h₁, hkeys₁⟩ := normalizeBlocksFor_ok hmono hzero blocks name
    obtain ⟨blocks₂, h₂, hkeys₂⟩ := ih blocks₁
    refine ⟨blocks₂, ?_, hkeys₂.trans hkeys₁⟩
    rw [foldlM_cons, h₁]
    exact h₂

/-! ### Agreement -/

/-- The regions of the blocks of a program around the given seeds. -/
def Blocks.regions (cfg : Cfg) (seeds : List (Seed blocks.nodes)) : Regions blocks.nodes :=
  buildAcfgVoronoiRegions seeds
    (buildVoronoiAdjacency cfg (nodeIndex (nodeOrder (blocks.map Prod.fst))))

/-- The arrays of every program pass the exporter's check, and the loader accepts them with the
    exported schema; each array keeps the order of the region sums, is zero at a site without a
    block, and lies in the unit interval. Scaling the blocks beforehand never fails either. -/
theorem extractor_output_accepted (log1p : K → K) (hmono : StrictMonoOn log1p (Set.Ici 0))
    (hzero : log1p 0 = 0) (cfg : Cfg) (blocks : Blocks K) (seeds : List (Seed blocks.nodes))
    (source : SignalSource) :
    (∃ blocks', normalizeBlocks log1p blocks = .ok blocks' ∧ blocks'.map Prod.fst = blocks.map Prod.fst) ∧
    ∃ arrays schema loaded,
      buildVoronoiRuntimeFeatureArrays log1p blocks _ seeds (blocks.regions cfg seeds) source
        buildRuntimeSchema.features ∅ = .ok arrays ∧
      validateExportedMaps arrays seeds.length = .ok () ∧
      loadAndValidateSchema buildRuntimeSchema = .ok schema ∧
      loadAndValidateFeatureMap (exportJson arrays) schema seeds.length = .ok loaded ∧
      ∀ name ∈ attrNames, ∃ sums arr,
        regionSums blocks _ seeds (blocks.regions cfg seeds) source name = .ok sums ∧
        loaded name = some arr ∧ arr.length = seeds.length ∧ KeepsOrder sums arr ∧
        ∀ i < seeds.length, siteNode seeds i = none → arr[i]? = some 0 := by
  choose sums hsums hlen hunmapped using
    regionSums_ok blocks seeds (blocks.regions cfg seeds) source
  obtain ⟨arrays, hbuild, hlookup⟩ := buildArrays_ok log1p hsums buildRuntimeSchema.features ∅
  rw [buildRuntimeSchema_names] at hlookup
  have hkeeps := fun name => normalizeFeature_keepsOrder hmono hzero name (sums name)
  have hmem : ∀ name ∈ attrNames, arrays.lookup name
      = some (normalizeFeature log1p name ((sums name).map some)) :=
    fun name hname => (hlookup name).trans (if_pos hname)
  have hkeys : ∀ name, name ∈ arrays.keys ↔ name ∈ attrNames := by
    intro name
    rw [← AList.mem_keys, ← AList.lookup_isSome, hlookup]
    split_ifs with hname <;> simp [hname]
  have hallowed : ∀ key ∈ (exportJson arrays).keys, key ∉ "features" :: legacyKeys ∧
      key ∈ buildRuntimeSchema.features.map (·.name) := by
    intro key hkey
    rw [exportJson_keys, hkeys] at hkey
    exact ⟨attrNames_allowed key hkey, hkey⟩
  have harrays : ∀ spec ∈ buildRuntimeSchema.features,
      (exportJson arrays).lookup spec.name
        = some (.array ((normalizeFeature log1p spec.name ((sums spec.name).map some)).map some)) ∧
      InRange (normalizeFeature log1p spec.name ((sums spec.name).map some)) ∧
      (normalizeFeature log1p spec.name ((sums spec.name).map some)).length = seeds.length := by
    intro spec hspec
    have hname : spec.name ∈ attrNames := mem_map_of_mem (f := FeatureSpec.name) hspec
    exact ⟨lookup_exportJson (hmem _ hname), inRange_of_unit (hkeeps spec.name).range,
      (hkeeps spec.name).length.trans (hlen spec.name)⟩
  obtain ⟨loaded, hload, hloaded⟩ := loadAndValidateFeatureMap_ok (exportJson arrays)
    buildRuntimeSchema seeds.length (fun name => normalizeFeature log1p name ((sums name).map some))
    hallowed harrays
  refine ⟨normalizeBlocks_ok hmono hzero blocks, arrays, buildRuntimeSchema, loaded, hbuild, ?_,
    loadAndValidateSchema_runtime, hload, fun name hname => ?_⟩
  · have hall : (arrays.keys.all (· ∈ attrNames) && attrNames.all (· ∈ arrays.keys)) = true := by
      simp [hkeys]
    rw [validateExportedMaps, hall]
    exact checkArrays_ok fun name hname =>
      ⟨_, hmem name hname, (hkeeps name).length.trans (hlen name), (hkeeps name).range⟩
  · exact ⟨sums name, _, hsums name, hloaded name hname, (hkeeps name).length.trans (hlen name),
      hkeeps name, fun i hi hnode => (hkeeps name).zero i (hunmapped name i hi hnode)⟩

namespace Demo

/-- Two blocks, one of them with calls. -/
def callBlocks : Blocks ℚ :=
  [(32, { rawAttrs := (∅ : Dict String (Option ℚ)).insert "call_count" (some 3) }), (16, {})]

/-- Three sites, the last one outside every block. -/
def callSeeds : List (Seed callBlocks.nodes) :=
  buildSancovSeedNodes [16, 32, 99] (fun pc => if pc = 99 then none else some pc)
    (nodeIndex (nodeOrder (callBlocks.map Prod.fst)))

end Demo

theorem extractor_output_accepted_demo : StrictMonoOn (id : ℚ → ℚ) (Set.Ici 0) ∧
    ∃ (arrays : Dict String (List ℚ)) (loaded : FeatureMap ℚ),
      validateExportedMaps arrays Demo.callSeeds.length = .ok () ∧
      loadAndValidateFeatureMap (exportJson arrays) buildRuntimeSchema Demo.callSeeds.length
        = .ok loaded := by
  have hmono : StrictMonoOn (id : ℚ → ℚ) (Set.Ici 0) := strictMono_id.strictMonoOn _
  obtain ⟨_, arrays, schema, loaded, _, hvalid, hschema, hload, _⟩ :=
    extractor_output_accepted id hmono rfl ((∅ : Cfg).insert 16 [32]) Demo.callBlocks Demo.callSeeds
      .raw
  refine ⟨hmono, arrays, loaded, hvalid, ?_⟩
  cases hschema
  exact hload

end Bofuzz.Extractor
