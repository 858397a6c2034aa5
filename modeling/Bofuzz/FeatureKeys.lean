import Bofuzz.FeatureMapFile

/-! Which key of the file a feature takes its array from (`features_map.rs`).

    Every feature takes the first of its keys that the file has, its name before its aliases. The
    schema may declare one alias for several features, and the file may have several keys of one
    feature: the first case gives two features the same array, the second one leaves a key
    unused. -/

namespace Bofuzz
open List

variable {F : Type}

/-- The keys of a feature, in the order in which they are tried. -/
def FeatureSpec.keys (spec : FeatureSpec) : List String := spec.name :: spec.aliases.getD []

variable (map : JsonMap F)

/-- The file has an earlier key of the feature, wherever its list of keys has `key`. -/
def Shadowed (spec : FeatureSpec) (key : String) : Prop :=
  ∀ before after, spec.keys = before ++ key :: after → ∃ k ∈ before, k ∈ map

/-- Of two features that share a key of the file one has an earlier key in the file, and for every
    key of the file there is a feature that has no earlier one. -/
structure Unambiguous (schema : FeatureSchemaFile) : Prop where
  shared : ∀ f ∈ schema.features, ∀ g ∈ schema.features, f ≠ g → ∀ key ∈ map,
    key ∈ f.keys → key ∈ g.keys → Shadowed map f key ∨ Shadowed map g key
  used : ∀ key ∈ map, ∃ f ∈ schema.features, key ∈ f.keys ∧ ¬ Shadowed map f key

/-- The keys that the features take their arrays from are in one-to-one correspondence with them. -/
structure KeysBijective (schema : FeatureSchemaFile) (result : FeatureMap F) : Prop where
  taken : ∀ spec ∈ schema.features, ∃ key ∈ spec.keys, resolveKey map spec = some key ∧
    ∃ vs, map.lookup key = some (.array (vs.map some)) ∧ result spec.name = some vs
  injective : ∀ f ∈ schema.features, ∀ g ∈ schema.features, resolveKey map f = resolveKey map g → f = g
  surjective : ∀ key ∈ map, ∃ spec ∈ schema.features, resolveKey map spec = some key

variable {spec : FeatureSpec}

theorem resolveKey_eq_some {map : JsonMap F} {key : String} :
    resolveKey map spec = some key ↔ key ∈ map ∧ key ∈ spec.keys ∧ ¬ Shadowed map spec key := by
  have hfind : resolveKey map spec = spec.keys.find? fun k => decide (k ∈ map) := by
    unfold resolveKey FeatureSpec.keys
    split_ifs with hname
    · simp [hname]
    · simp [hname]
  rw [hfind, find?_eq_some_iff_append]
  simp only [decide_eq_true_eq, Shadowed, not_forall, not_exists, not_and, Bool.not_eq_true',
    decide_eq_false_iff_not]
  refine and_congr_right fun _ => ?_
  constructor
  · rintro ⟨before, after, hkeys, hnone⟩
    exact ⟨hkeys ▸ by simp, before, after, hkeys, hnone⟩
  · rintro ⟨-, before, after, hkeys, hnone⟩
    exact ⟨before, after, hkeys, hnone⟩

/-! ### What the loader stores -/

theorem arrayNumbers_eq_ok {items : List (Option F)} {i : ℕ} {vs : List F}
    (h : arrayNumbers spec i items = .ok vs) : items = vs.map some := by
  induction items generalizing i vs with
  | nil =>
    cases h
    rfl
  | cons item items ih =>
    cases item with
    | none => cases h
    | some v =>
      rw [arrayNumbers] at h
      split at h
      · cases h
      · next ws hrest =>
        cases h
        rw [ih hrest, map_cons]

section
variable [Ranged F] {map : JsonMap F}

theorem loadFeature_eq_ok {vs : List F} (h : loadFeature map spec = .ok vs) :
    ∃ key, resolveKey map spec = some key ∧ map.lookup key = some (.array (vs.map some)) := by
  unfold loadFeature at h
  split at h
  · cases h
  · cases h
  · next items hitems =>
    obtain ⟨key, hkey, hlookup⟩ := Option.bind_eq_some_iff.mp hitems
    split at h
    · cases h
    · next arr harr =>
      split at h
      · cases h
      · cases h
        exact ⟨key, hkey, arrayNumbers_eq_ok harr ▸ hlookup⟩

variable {specs : List FeatureSpec} {result result' : FeatureMap F} {expectedLen expectedLen' : Option ℕ}

theorem loadSpecs_cons
    (h : loadSpecs map (spec :: specs) result expectedLen = .ok (result', expectedLen')) :
    ∃ vs len, loadFeature map spec = .ok vs ∧
      loadSpecs map specs (Function.update result spec.name (some vs)) len =
        .ok (result', expectedLen') := by
  rw [loadSpecs] at h
  split at h
  · cases h
  · next vs hvs =>
    dsimp only at h
    split at h
    · exact ⟨vs, _, hvs, h⟩
    · split_ifs at h
      exact ⟨vs, _, hvs, h⟩

theorem loadSpecs_eq_ok (hnames : (specs.map (·.name)).Nodup)
    (h : loadSpecs map specs result expectedLen = .ok (result', expectedLen')) :
    (∀ spec ∈ specs, ∃ vs, loadFeature map spec = .ok vs ∧ result' spec.name = some vs) ∧
    ∀ name ∉ specs.map (·.name), result' name = result name := by
  induction specs generalizing result expectedLen with
  | nil =>
    cases h
    exact ⟨by simp, fun _ _ => rfl⟩
  | cons spec specs ih =>
    obtain ⟨vs, len, hvs, hrest⟩ := loadSpecs_cons h
    rw [map_cons, nodup_cons] at hnames
    obtain ⟨hspecs, hother⟩ := ih hnames.2 hrest
    refine ⟨forall_mem_cons.mpr ⟨⟨vs, hvs, ?_⟩, hspecs⟩, fun name hname => ?_⟩
    · rw [hother spec.name hnames.1, Function.update_self]
    · rw [map_cons, mem_cons, not_or] at hname
      rw [hother name hname.2, Function.update_of_ne hname.1]

variable {schema : FeatureSchemaFile}

theorem loadAndValidateFeatureMap_eq_ok {sancovSites : ℕ}
    (h : loadAndValidateFeatureMap map schema sancovSites = .ok result) :
    ∃ expectedLen, loadSpecs map schema.features (fun _ => none) none = .ok (result, expectedLen) := by
  unfold loadAndValidateFeatureMap at h
  split_ifs at h
  split at h
  · cases h
  split at h
  · cases h
  · next loaded hloaded =>
    cases h
    exact ⟨none, hloaded⟩
  · next loaded el hloaded =>
    split_ifs at h
    cases h
    exact ⟨some el, hloaded⟩

end

/-! ### What the schema guarantees -/

theorem checkUnique_eq_ok {fs : List FeatureSpec} {ids names : List String}
    (h : checkUnique fs ids names = .ok ()) :
    (fs.map (·.name)).Nodup ∧ ∀ f ∈ fs, f.name ∉ names := by
  induction fs generalizing ids names with
  | nil => simp
  | cons f fs ih =>
    rw [checkUnique] at h
    split_ifs at h with hid hname
    obtain ⟨hnodup, hfresh⟩ := ih h
    refine ⟨?_, forall_mem_cons.mpr ⟨hname, fun g hg hmem => hfresh g hg (.tail _ hmem)⟩⟩
    rw [map_cons, nodup_cons]
    refine ⟨fun hmem => ?_, hnodup⟩
    obtain ⟨g, hg, heq⟩ := mem_map.mp hmem
    exact hfresh g hg (heq ▸ mem_cons_self)

theorem loadAndValidateSchema_names {file schema : FeatureSchemaFile}
    (h : loadAndValidateSchema file = .ok schema) : (schema.features.map (·.name)).Nodup := by
  unfold loadAndValidateSchema at h
  split_ifs at h
  split at h
  · cases h
  · next hunique =>
    split at h
    · cases h
    · cases h
      exact (checkUnique_eq_ok hunique).1

/-! ### The correspondence -/

/-- An accepted file is loaded one to one just if no key serves two features and none is unused. -/
theorem feature_keys_bijective_iff [Ranged F] (file schema : FeatureSchemaFile)
    (hschema : loadAndValidateSchema file = .ok schema) (map : JsonMap F) (sancovSites : ℕ)
    (result : FeatureMap F)
    (hload : loadAndValidateFeatureMap map schema sancovSites = .ok result) :
    KeysBijective map schema result ↔ Unambiguous map schema := by
  obtain ⟨expectedLen, hspecs⟩ := loadAndValidateFeatureMap_eq_ok hload
  have hstored := (loadSpecs_eq_ok (loadAndValidateSchema_names hschema) hspecs).1
  have hkey : ∀ spec ∈ schema.features, ∃ key, resolveKey map spec = some key := by
    intro spec hspec
    obtain ⟨vs, hvs, -⟩ := hstored spec hspec
    obtain ⟨key, hkey, -⟩ := loadFeature_eq_ok hvs
    exact ⟨key, hkey⟩
  constructor
  · intro hbij
    refine ⟨fun f hf g hg hne key hmem hfkey hgkey => ?_, fun key hmem => ?_⟩
    · by_contra hnone
      rw [not_or] at hnone
      have hf' := resolveKey_eq_some.mpr ⟨hmem, hfkey, hnone.1⟩
      have hg' := resolveKey_eq_some.mpr ⟨hmem, hgkey, hnone.2⟩
      exact hne (hbij.injective f hf g hg (hf'.trans hg'.symm))
    · obtain ⟨spec, hspec, hkey⟩ := hbij.surjective key hmem
      obtain ⟨-, hlisted, hfirst⟩ := resolveKey_eq_some.mp hkey
      exact ⟨spec, hspec, hlisted, hfirst⟩
  · intro hclear
    refine ⟨fun spec hspec => ?_, fun f hf g hg heq => ?_, fun key hmem => ?_⟩
    · obtain ⟨vs, hvs, hresult⟩ := hstored spec hspec
      obtain ⟨key, hkey, hlookup⟩ := loadFeature_eq_ok hvs
      exact ⟨key, (resolveKey_eq_some.mp hkey).2.1, hkey, vs, hlookup, hresult⟩
    · obtain ⟨key, hfkey⟩ := hkey f hf
      obtain ⟨hmem, hlisted, hfirst⟩ := resolveKey_eq_some.mp hfkey
      obtain ⟨-, hlisted', hfirst'⟩ := resolveKey_eq_some.mp (heq ▸ hfkey)
      by_contra hne
      exact (hclear.shared f hf g hg hne key hmem hlisted hlisted').elim hfirst hfirst'
    · obtain ⟨spec, hspec, hlisted, hfirst⟩ := hclear.used key hmem
      exact ⟨spec, hspec, resolveKey_eq_some.mpr ⟨hmem, hlisted, hfirst⟩⟩

namespace Demo

/-- Two features with the same alias. -/
def sharedSchema : FeatureSchemaFile :=
  ⟨4, [⟨"S01", "calls", none, some ["x"]⟩, ⟨"S02", "loops", none, some ["x"]⟩]⟩

/-- A feature with an alias. -/
def aliasSchema : FeatureSchemaFile := ⟨4, [⟨"S01", "calls", none, some ["x"]⟩]⟩

/-- An array with one number. -/
def half : JsonField Exact := .array [some (.fin (1 / 2))]

/-- The file with these keys. -/
def mapOf (keys : List String) : JsonMap Exact := keys.foldr (fun key map => map.insert key half) ∅

theorem loaded {schema : FeatureSchemaFile} {keys : List String}
    (h : (loadAndValidateFeatureMap (mapOf keys) schema 1).isOk = true) :
    ∃ result, loadAndValidateFeatureMap (mapOf keys) schema 1 = .ok result := by
  cases hload : loadAndValidateFeatureMap (mapOf keys) schema 1 with
  | ok result => exact ⟨result, rfl⟩
  | error e =>
    rw [hload] at h
    cases h

end Demo

/-- An alias alone: the only key is taken by the only feature. -/
theorem feature_keys_bijective_demo :
    loadAndValidateSchema Demo.aliasSchema = .ok Demo.aliasSchema ∧
    ∃ result, loadAndValidateFeatureMap (Demo.mapOf ["x"]) Demo.aliasSchema 1 = .ok result ∧
      KeysBijective (Demo.mapOf ["x"]) Demo.aliasSchema result := by
  have hschema : loadAndValidateSchema Demo.aliasSchema = .ok Demo.aliasSchema := by decide +kernel
  have hok : (loadAndValidateFeatureMap (Demo.mapOf ["x"]) Demo.aliasSchema 1).isOk = true := by
    decide +kernel
  obtain ⟨result, hload⟩ := Demo.loaded hok
  refine ⟨hschema, result, hload, (feature_keys_bijective_iff _ _ hschema _ 1 result hload).mpr ⟨?_, ?_⟩⟩
  · intro f hf g hg hne
    rw [Demo.aliasSchema, mem_singleton] at hf hg
    exact absurd (hf.trans hg.symm) hne
  · intro key hkey
    obtain rfl : key = "x" := ((AList.mem_insert _).mp hkey).resolve_right (AList.notMem_empty key)
    refine ⟨_, mem_singleton_self _, by decide, fun hshadow => ?_⟩
    obtain ⟨k, hk, hmem⟩ := hshadow ["calls"] [] rfl
    rw [mem_singleton.mp hk] at hmem
    exact absurd hmem (by decide)

/-- A shared alias gives two features the same key, and an alias next to the name is not used. -/
theorem feature_keys_lost :
    (loadAndValidateSchema Demo.sharedSchema = .ok Demo.sharedSchema ∧
      ∃ result, loadAndValidateFeatureMap (Demo.mapOf ["x"]) Demo.sharedSchema 1 = .ok result ∧
        ¬ KeysBijective (Demo.mapOf ["x"]) Demo.sharedSchema result) ∧
    (loadAndValidateSchema Demo.aliasSchema = .ok Demo.aliasSchema ∧
      ∃ result, loadAndValidateFeatureMap (Demo.mapOf ["calls", "x"]) Demo.aliasSchema 1 = .ok result ∧
        ¬ KeysBijective (Demo.mapOf ["calls", "x"]) Demo.aliasSchema result) := by
  constructor
  · have hok : (loadAndValidateFeatureMap (Demo.mapOf ["x"]) Demo.sharedSchema 1).isOk = true := by
      decide +kernel
    obtain ⟨result, hload⟩ := Demo.loaded hok
    refine ⟨by decide +kernel, result, hload, fun hbij => ?_⟩
    have hsame := hbij.injective ⟨"S01", "calls", none, some ["x"]⟩ (by decide)
      ⟨"S02", "loops", none, some ["x"]⟩ (by decide) (by decide +kernel)
    exact absurd hsame (by decide)
  · have hok : (loadAndValidateFeatureMap (Demo.mapOf ["calls", "x"]) Demo.aliasSchema 1).isOk =
        true := by decide +kernel
    obtain ⟨result, hload⟩ := Demo.loaded hok
    refine ⟨by decide +kernel, result, hload, fun hbij => ?_⟩
    obtain ⟨spec, hspec, hkey⟩ := hbij.surjective "x" (by decide)
    obtain rfl := mem_singleton.mp hspec
    exact absurd hkey (by decide +kernel)

end Bofuzz
