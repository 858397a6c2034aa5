import Bofuzz.Config
import Mathlib.Data.List.AList

/-! The feature map that a process reads (`features_map.rs`).

    The file is a JSON object with an array of numbers for each feature, under its name or under
    one of its aliases. `loadAndValidateFeatureMap` rejects keys it does not know and values outside
    the unit interval, and stores every array under the name of its feature. -/

namespace Bofuzz
open F64 List

/-- What the checks of a feature value ask of a number. -/
class Ranged (F : Type) where
  isFinite : F → Bool
  isNegative : F → Bool
  /-- `v > 1.0 + EPS`. -/
  exceedsOne : F → Bool

instance {F : Type} [F64 F] : Ranged F where
  isFinite := F64.isFinite
  isNegative v := F64.lt v (F64.lit 0)
  exceedsOne v := F64.lt (F64.lit 1 + eps) v

/-- The value of a key: an array, whose elements may be other things than numbers, or anything
    else. -/
inductive JsonField (F : Type) where
  | array (items : List (Option F))
  | other

/-- The parsed file. -/
abbrev JsonMap (F : Type) := AList fun _ : String => JsonField F

def legacyKeys : List String := ["imme", "strc", "mem", "arith", "indeg", "offsp", "btw", "depth"]

/-- The names and the aliases of the schema. -/
def allowedKeys (schema : FeatureSchemaFile) : List String :=
  schema.features.flatMap fun spec => spec.name :: spec.aliases.getD []

/-- The first key that is a legacy one or not in the schema. -/
def checkKeys (allowed : List String) : List String → Except String Unit
  | [] => .ok ()
  | key :: keys =>
    if key ∈ legacyKeys then
      .error (s!"BOFuzz feature-map error: legacy key '{key}' is not supported; " ++
        "use canonical schema feature names")
    else if key ∉ allowed then
      .error s!"BOFuzz feature-map error: unknown key '{key}' not in schema"
    else checkKeys allowed keys

variable {F : Type} [Ranged F] (map : JsonMap F) (spec : FeatureSpec)

/-- The key under which the file has a feature: its name first, then its aliases. -/
def resolveKey : Option String :=
  if spec.name ∈ map then some spec.name
  else (spec.aliases.getD []).find? fun a => decide (a ∈ map)

/-- The numbers of an array, counting indexes from `i`. -/
def arrayNumbers : ℕ → List (Option F) → Except String (List F)
  | _, [] => .ok []
  | i, none :: _ => .error (s!"BOFuzz feature-map error: feature {spec.id} {spec.name} " ++
      s!"contains non-numeric value at index {i}")
  | i, some v :: items =>
    match arrayNumbers (i + 1) items with
    | .error e => .error e
    | .ok vs => .ok (v :: vs)

/-- The range check of the values, counting indexes from `i`. -/
def checkRange : ℕ → List F → Except String Unit
  | _, [] => .ok ()
  | i, v :: vs =>
    if !Ranged.isFinite v then
      .error (s!"BOFuzz feature-map error: feature {spec.id} {spec.name} " ++
        s!"contains non-finite value at index {i}")
    else if Ranged.isNegative v then
      .error (s!"BOFuzz feature-map error: feature {spec.id} {spec.name} " ++
        s!"contains negative value at index {i} under simplex mode")
    else if Ranged.exceedsOne v then
      .error (s!"BOFuzz feature-map error: feature {spec.id} {spec.name} " ++
        s!"value at index {i} exceeds [0,1]")
    else checkRange (i + 1) vs

/-- The checked array of one feature. -/
def loadFeature : Except String (List F) :=
  match (resolveKey map spec).bind map.lookup with
  | none => .error s!"BOFuzz feature-map error: missing feature {spec.id} {spec.name}"
  | some .other => .error s!"BOFuzz feature-map error: feature {spec.id} {spec.name} is not an array"
  | some (.array items) =>
    match arrayNumbers spec 0 items with
    | .error e => .error e
    | .ok arr =>
      match checkRange spec 0 arr with
      | .error e => .error e
      | .ok () => .ok arr

/-- The features one after the other; all arrays have the length of the first one. -/
def loadSpecs : List FeatureSpec → FeatureMap F → Option ℕ → Except String (FeatureMap F × Option ℕ)
  | [], result, expectedLen => .ok (result, expectedLen)
  | spec :: specs, result, expectedLen =>
    match loadFeature map spec with
    | .error e => .error e
    | .ok arr =>
      let len := arr.length
      match expectedLen with
      | none => loadSpecs specs (Function.update result spec.name (some arr)) (some len)
      | some el =>
        if len ≠ el then
          .error (s!"BOFuzz feature-map error: feature {spec.id} {spec.name} " ++
            s!"length {len} != expected {el}")
        else loadSpecs specs (Function.update result spec.name (some arr)) (some el)

/-- What `load_and_validate_feature_map` makes of the parsed file. -/
def loadAndValidateFeatureMap (schema : FeatureSchemaFile) (sancovSites : ℕ) :
    Except String (FeatureMap F) :=
  if "features" ∈ map then
    .error "BOFuzz feature-map error: legacy \x7b\"features\": [...]\x7d format not supported"
  else
    match checkKeys (allowedKeys schema) map.keys with
    | .error e => .error e
    | .ok () =>
      match loadSpecs map schema.features (fun _ => none) none with
      | .error e => .error e
      | .ok (result, none) => .ok result
      | .ok (result, some el) =>
        if el ≠ sancovSites then
          .error s!"BOFuzz feature-map error: feature array length {el} != sancov_sites {sancovSites}"
        else .ok result

/-! ### What is accepted -/

/-- The values pass the range check. -/
def InRange (vs : List F) : Prop :=
  ∀ v ∈ vs, Ranged.isFinite v = true ∧ Ranged.isNegative v = false ∧ Ranged.exceedsOne v = false

theorem checkKeys_ok {allowed keys : List String}
    (h : ∀ key ∈ keys, key ∉ legacyKeys ∧ key ∈ allowed) : checkKeys allowed keys = .ok () := by
  induction keys with
  | nil => rfl
  | cons key keys ih =>
    obtain ⟨hlegacy, hallowed⟩ := h key mem_cons_self
    rw [checkKeys, if_neg hlegacy, if_neg (not_not.mpr hallowed)]
    exact ih fun k hk => h k (.tail _ hk)

omit [Ranged F] in
theorem arrayNumbers_some (vs : List F) (i : ℕ) : arrayNumbers spec i (vs.map some) = .ok vs := by
  induction vs generalizing i with
  | nil => rfl
  | cons v vs ih => rw [map_cons, arrayNumbers, ih]

theorem checkRange_ok {vs : List F} (h : InRange vs) (i : ℕ) : checkRange spec i vs = .ok () := by
  induction vs generalizing i with
  | nil => rfl
  | cons v vs ih =>
    obtain ⟨hfin, hneg, hone⟩ := h v mem_cons_self
    rw [checkRange, hfin, hneg, hone]
    exact ih (fun w hw => h w (.tail _ hw)) (i + 1)

theorem loadFeature_ok {map : JsonMap F} {spec : FeatureSpec} {vs : List F}
    (hmap : map.lookup spec.name = some (.array (vs.map some))) (hrange : InRange vs) :
    loadFeature map spec = .ok vs := by
  have hmem : spec.name ∈ map := AList.lookup_isSome.mp (by rw [hmap]; rfl)
  rw [loadFeature, resolveKey, if_pos hmem, Option.bind_some, hmap]
  simp only [arrayNumbers_some, checkRange_ok spec hrange]

/-- Features with arrays of one length in range are all loaded, each under its name. -/
theorem loadSpecs_ok {map : JsonMap F} {sites : ℕ} {arrays : String → List F} :
    ∀ (specs : List FeatureSpec) (result : FeatureMap F) (expectedLen : Option ℕ),
      (∀ spec ∈ specs, map.lookup spec.name = some (.array ((arrays spec.name).map some)) ∧
        InRange (arrays spec.name) ∧ (arrays spec.name).length = sites) →
      (∀ el ∈ expectedLen, el = sites) →
      ∃ result' expectedLen', loadSpecs map specs result expectedLen = .ok (result', expectedLen') ∧
        (∀ el ∈ expectedLen', el = sites) ∧
        ∀ name, result' name = if name ∈ specs.map (·.name) then some (arrays name) else result name
  | [], result, expectedLen, _, hlen => ⟨result, expectedLen, rfl, hlen, fun _ => rfl⟩
  | spec :: specs, result, expectedLen, h, hlen => by
    obtain ⟨hmap, hrange, hsites⟩ := h spec mem_cons_self
    obtain ⟨result', expectedLen', hload, hlen', hresult⟩ :=
      loadSpecs_ok specs (Function.update result spec.name (some (arrays spec.name)))
        (some sites) (fun s hs => h s (.tail _ hs)) (by simp)
    refine ⟨result', expectedLen', ?_, hlen', fun name => ?_⟩
    · rw [loadSpecs, loadFeature_ok hmap hrange]
      cases expectedLen with
      | none => simpa only [hsites] using hload
      | some el =>
        obtain rfl : el = sites := hlen el rfl
        simpa only [hsites, ne_eq, not_true, if_false] using hload
    · rw [hresult]
      by_cases hname : name = spec.name
      · subst hname
        simp
      · simp [hname]

/-- A file with just the names of the schema as keys, and in-range arrays of the right length. -/
theorem loadAndValidateFeatureMap_ok (schema : FeatureSchemaFile) (sites : ℕ)
    (arrays : String → List F)
    (hkeys : ∀ key ∈ map.keys, key ∉ "features" :: legacyKeys ∧ key ∈ schema.features.map (·.name))
    (harrays : ∀ spec ∈ schema.features,
      map.lookup spec.name = some (.array ((arrays spec.name).map some)) ∧
        InRange (arrays spec.name) ∧ (arrays spec.name).length = sites) :
    ∃ result, loadAndValidateFeatureMap map schema sites = .ok result ∧
      ∀ name ∈ schema.features.map (·.name), result name = some (arrays name) := by
  have hfeatures : "features" ∉ map := by
    intro hmem
    exact (hkeys _ (AList.mem_keys.mp hmem)).1 mem_cons_self
  have hcheck : checkKeys (allowedKeys schema) map.keys = .ok () := by
    refine checkKeys_ok fun key hkey => ⟨fun hmem => (hkeys key hkey).1 (.tail _ hmem), ?_⟩
    obtain ⟨spec, hspec, rfl⟩ := mem_map.mp (hkeys key hkey).2
    exact mem_flatMap.mpr ⟨spec, hspec, mem_cons_self⟩
  obtain ⟨result, expectedLen, hload, hlen, hresult⟩ :=
    loadSpecs_ok schema.features (fun _ => none) none harrays (by simp)
  refine ⟨result, ?_, fun name hname => by rw [hresult, if_pos hname]⟩
  rw [loadAndValidateFeatureMap, if_neg hfeatures, hcheck]
  simp only [hload]
  cases expectedLen with
  | none => rfl
  | some el => simp only [hlen el rfl, ne_eq, not_true, if_false]

end Bofuzz
