import Bofuzz.Campaign

/-! What a resumed run checks of its coordinates.

    A resume compares the mode, the requested mask and the dimensions with the persisted ones. The
    names of the active features are recomputed from the schema it finds and overwrite the
    persisted ones, so a coordinate keeps its meaning exactly when the schema has the persisted
    names at the selected positions. -/

namespace Bofuzz
open F64 TpeStage List

variable {F : Type} [F64 F]

/-- The resumed state has the mode, the mask and the ordered feature names of the persisted run. -/
structure KeepsCoordinates (runtime : VecMaskRuntimeMeta F) (t : State F) : Prop where
  mode : t.mask.mode = runtime.mode
  mask : t.mask.effectiveMask = runtime.effectiveMask ∧ t.globals.vecMask = runtime.effectiveMask
  names : t.globals.activeFeatureNames = runtime.selectedFeatureNames

/-- The names a schema has at the given positions. -/
def namesAt (schema : FeatureSchemaFile) (indices : List ℕ) : List String :=
  indices.filterMap fun i => schema.features[i]?.map (·.name)

/-- Walking features and mask bits together picks the features at the selected positions; `k`
    positions of `all` have been passed. -/
theorem zip_names_eq (all : List FeatureSpec) : ∀ (features : List FeatureSpec) (mask : List Bool)
    (k : ℕ), all.drop k = features →
    ((features.zip mask).filter (·.2)).map (·.1.name) =
      ((mask.zipIdx k).filterMap fun b => if b.1 then some b.2 else none).filterMap
        fun i => all[i]?.map (·.name)
  | features, [], k, _ => by simp
  | [], b :: mask, k, h => by
    have hlen : all.length ≤ k := drop_eq_nil_iff.mp h
    rw [zip_nil_left, filter_nil, map_nil, eq_comm, filterMap_eq_nil_iff]
    intro i hi
    obtain ⟨c, hc, hci⟩ := mem_filterMap.mp hi
    have hk : k ≤ c.2 := (mem_zipIdx hc).1
    split_ifs at hci
    obtain rfl := Option.some.inj hci
    rw [getElem?_eq_none (hlen.trans hk)]
    rfl
  | f :: features, b :: mask, k, h => by
    have hf : all[k]? = some f := by
      rw [← head?_drop, h]
      rfl
    have hrest : all.drop (k + 1) = features := by
      rw [← tail_drop, h]
      rfl
    have ih := zip_names_eq all features mask (k + 1) hrest
    cases b with
    | false => simpa using ih
    | true => simp [hf, ih]

theorem activeNames_eq (schema : FeatureSchemaFile) (mask : List Bool) :
    (computeActiveFeatures schema mask).map (·.name) = namesAt schema (selectedIndices mask) := by
  rw [computeActiveFeatures, map_map]
  exact zip_names_eq schema.features schema.features mask 0 rfl

/-- A successful resume, of a committed run or not, keeps the meaning of every coordinate exactly
    when the schema has the persisted names at the positions the persisted mask selects. -/
theorem resume_keeps_coordinates_iff {s t : State F} {schema : FeatureSchemaFile}
    {config : VecMaskConfig} {active : List FeatureSpec} {runtime : VecMaskRuntimeMeta F}
    (hruntime : s.runtime = some runtime)
    (h : initializeVecMaskState s schema config true = .ok (t, active)) :
    KeepsCoordinates runtime t ↔
      namesAt schema (selectedIndices runtime.effectiveMask) = runtime.selectedFeatureNames := by
  obtain ⟨runtime', hruntime', _, hinst, _⟩ := initializeResumed_ok h
  obtain rfl : runtime = runtime' := Option.some.inj (hruntime.symm.trans hruntime')
  obtain rfl : t = (installResumed s schema runtime).1 := congrArg Prod.fst hinst
  rw [← activeNames_eq]
  exact ⟨fun hkeeps => hkeeps.names, fun hnames => ⟨rfl, ⟨rfl, rfl⟩, hnames⟩⟩

namespace Demo

/-- The state of the small campaign when its second candidate is pending. -/
def persisted : State Exact := (reached firstWindow).proc.state

/-- Resuming it with a schema. -/
def resumedWith (schema : FeatureSchemaFile) : State Exact × List FeatureSpec :=
  (initializeVecMaskState persisted schema setup.config true).toOption.getD ({}, [])

/-- The same features the other way round. -/
def swapped : FeatureSchemaFile := { schema with features := schema.features.reverse }

end Demo

theorem resume_keeps_coordinates_demo :
    KeepsCoordinates Demo.persisted.mask (Demo.resumedWith Demo.schema).1 :=
  (resume_keeps_coordinates_iff (s := Demo.persisted) (State.runtime_eq (by decide +kernel))
    (Effect.eq_ok_of_isSome (initializeVecMaskState Demo.persisted Demo.schema Demo.setup.config true)
      ({}, []) (by decide +kernel))).mpr (by decide +kernel)

/-- A schema with the features in another order is accepted, and a committed run goes on with its
    coordinates swapped. -/
theorem resume_swaps_coordinates :
    loadAndValidateSchema Demo.swapped = .ok Demo.swapped ∧ Demo.persisted.mask.tpeInitCommitted ∧
      initializeVecMaskState Demo.persisted Demo.swapped Demo.setup.config true
        = .ok (Demo.resumedWith Demo.swapped) ∧
      ¬ KeepsCoordinates Demo.persisted.mask (Demo.resumedWith Demo.swapped).1 := by
  refine ⟨by decide, by decide +kernel, Effect.eq_ok_of_isSome _ _ (by decide +kernel), fun h => ?_⟩
  have hnames : (Demo.resumedWith Demo.swapped).1.globals.activeFeatureNames
      ≠ Demo.persisted.mask.selectedFeatureNames := by decide +kernel
  exact hnames h.names

end Bofuzz
