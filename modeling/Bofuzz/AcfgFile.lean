import Bofuzz.Extractor.SancovAcfg
import Bofuzz.FrontierCredit

/-! The sancov graph between the extractor and the runtime (`save_sancov_acfg_json`,
    `load_sancov_acfg` of `lib.rs`).

    The loader checks the two adjacency lists one by one: their lengths and the range of their
    entries. That both describe the same edges is up to the writer, which enters every edge into
    both. -/

namespace Bofuzz
open List

/-- The file as the runtime reads it. -/
structure SancovAcfgFile where
  schemaVersion : ℕ
  kind : String
  nSancovSites : ℕ
  successors : List (List ℕ)
  predecessors : List (List ℕ)

/-- The error of the first entry that is not below `n`. -/
def outOfRange (n : ℕ) (kind : String) (lists : List (List ℕ)) : Option String :=
  lists.zipIdx.findSome? fun e => (e.1.find? (n ≤ ·)).map fun node =>
    s!"BOFuzz sancov ACFG error: {kind}[{e.2}] contains out-of-range node {node}"

/-- The loader, from the parsed file on; `path` is for the messages. -/
def loadSancovAcfg (path : String) (file : SancovAcfgFile) (sancovSites : ℕ) :
    Except String SancovAcfgMeta :=
  if file.schemaVersion ≠ 1 ∨ file.kind ≠ "bofuzz-sancov-acfg-v1" then
    .error s!"BOFuzz sancov ACFG error: {path} has unsupported schema/kind"
  else if file.nSancovSites ≠ sancovSites then
    .error (s!"BOFuzz sancov ACFG error: n_sancov_sites {file.nSancovSites} " ++
      s!"!= runtime sancov sites {sancovSites}")
  else if file.successors.length ≠ file.nSancovSites then
    .error "BOFuzz sancov ACFG error: successors length mismatch"
  else if file.predecessors.length ≠ file.nSancovSites then
    .error "BOFuzz sancov ACFG error: predecessors length mismatch"
  else
    match (outOfRange file.nSancovSites "successors" file.successors).or
      (outOfRange file.nSancovSites "predecessors" file.predecessors) with
    | some e => .error e
    | none => .ok { iteration := 0, nSancovSites := file.nSancovSites
                    successors := file.successors, predecessors := file.predecessors }

/-! ### What is accepted -/

/-- A list of adjacency lists for `n` sites. -/
def SiteLists (n : ℕ) (lists : List (List ℕ)) : Prop :=
  lists.length = n ∧ ∀ xs ∈ lists, ∀ x ∈ xs, x < n

/-- The shape that the loader checks. -/
structure SancovAcfgFile.WellFormed (file : SancovAcfgFile) (sancovSites : ℕ) : Prop where
  schema : file.schemaVersion = 1 ∧ file.kind = "bofuzz-sancov-acfg-v1"
  sites : file.nSancovSites = sancovSites
  successors : SiteLists sancovSites file.successors
  predecessors : SiteLists sancovSites file.predecessors

/-- Both lists describe the same edges, which join sites. -/
structure SancovAcfgMeta.Transposed (acfg : SancovAcfgMeta) : Prop where
  iff : ∀ u v, v ∈ acfg.successors.getD u [] ↔ u ∈ acfg.predecessors.getD v []
  sites : ∀ {u v}, v ∈ acfg.successors.getD u [] → u < acfg.nSancovSites ∧ v < acfg.nSancovSites

theorem outOfRange_eq_none {n : ℕ} {kind : String} {lists : List (List ℕ)} :
    outOfRange n kind lists = none ↔ ∀ xs ∈ lists, ∀ x ∈ xs, x < n := by
  unfold outOfRange
  rw [findSome?_eq_none_iff]
  simp only [Option.map_eq_none_iff, find?_eq_none, decide_eq_true_eq, not_le]
  constructor
  · intro hall xs hxs
    obtain ⟨i, hi⟩ := getElem?_of_mem hxs
    exact hall (xs, i) (mem_zipIdx_iff_getElem?.mpr hi)
  · intro hall e he
    exact hall e.1 (mem_of_getElem? (mem_zipIdx_iff_getElem?.mp he))

/-- The loader accepts the files of the right shape, as they are. -/
theorem loadSancovAcfg_eq_ok {path : String} {file : SancovAcfgFile} {sancovSites : ℕ}
    {acfg : SancovAcfgMeta} : loadSancovAcfg path file sancovSites = .ok acfg ↔
      file.WellFormed sancovSites ∧
      acfg = ⟨0, file.nSancovSites, file.successors, file.predecessors⟩ := by
  unfold loadSancovAcfg
  split_ifs with hschema hsites hsuccs hpreds
  · simp only [false_iff, not_and]
    exact fun hfile => absurd hfile.schema (by tauto)
  · simp only [false_iff, not_and]
    exact fun hfile => absurd hfile.sites hsites
  · simp only [false_iff, not_and]
    exact fun hfile => absurd (hfile.successors.1.trans hfile.sites.symm) hsuccs
  · simp only [false_iff, not_and]
    exact fun hfile => absurd (hfile.predecessors.1.trans hfile.sites.symm) hpreds
  · obtain rfl := not_not.mp hsites
    split
    · next e hrange =>
      simp only [reduceCtorEq, false_iff, not_and]
      intro hfile
      rw [outOfRange_eq_none.mpr hfile.successors.2, outOfRange_eq_none.mpr hfile.predecessors.2]
        at hrange
      cases hrange
    · next hrange =>
      obtain ⟨hsuccRange, hpredRange⟩ := Option.or_eq_none_iff.mp hrange
      have hfile : file.WellFormed file.nSancovSites :=
        { schema := by tauto
          sites := rfl
          successors := ⟨not_not.mp hsuccs, outOfRange_eq_none.mp hsuccRange⟩
          predecessors := ⟨not_not.mp hpreds, outOfRange_eq_none.mp hpredRange⟩ }
      simp only [Except.ok.injEq, hfile, true_and]
      exact eq_comm

/-! ### What is written -/

/-- The fields of the written file that the runtime reads. -/
def Extractor.SancovAcfgFile.parsed {n : ℕ} (file : Extractor.SancovAcfgFile n) :
    Bofuzz.SancovAcfgFile where
  schemaVersion := file.schemaVersion
  kind := file.kind
  nSancovSites := file.nSancovSites
  successors := file.successors
  predecessors := file.predecessors

namespace Extractor

/-- Every edge is in both sets, and none is a loop. -/
structure Linked {m : ℕ} (sets : Sets m × Sets m) : Prop where
  iff : ∀ a b, b ∈ sets.1 a ↔ a ∈ sets.2 b
  irrefl : ∀ a, a ∉ sets.1 a

section
variable {n m : ℕ} {owner : Fin n → Option (Fin m)} {sets : Sets m × Sets m}

theorem Linked.linkTo (hsets : Linked sets) (su : Fin m) (v : Fin n) :
    Linked (linkTo owner su sets v) := by
  unfold Extractor.linkTo
  split
  · exact hsets
  · next sv _ =>
    split_ifs with hself
    · exact hsets
    constructor
    · intro a b
      rw [mem_add, mem_add, hsets.iff, and_comm]
    · intro a hmem
      rcases mem_add.mp hmem with hmem | ⟨rfl, rfl⟩
      · exact hsets.irrefl a hmem
      · exact hself rfl

theorem Linked.linkFrom (hsets : Linked sets) (e : Sigma fun _ : Fin n => List (Fin n)) :
    Linked (linkFrom owner sets e) := by
  unfold Extractor.linkFrom
  split
  · exact hsets
  · exact List.foldlRecOn e.2 _ hsets fun _ h v _ => h.linkTo _ v

theorem linked_linkSites (adj : Dict (Fin n) (List (Fin n))) : Linked (linkSites owner adj) :=
  List.foldlRecOn adj.entries _ ⟨by simp, by simp⟩ fun _ h e _ => h.linkFrom e

end

theorem Sets.siteLists_toLists {m : ℕ} (sets : Sets m) : SiteLists m sets.toLists := by
  refine ⟨length_ofFn, fun xs hxs x hx => ?_⟩
  obtain ⟨u, rfl⟩ := (mem_ofFn' _ _).mp hxs
  obtain ⟨v, -, rfl⟩ := mem_map.mp hx
  exact v.isLt

theorem saveSancovAcfgJson_eq_ok {n : ℕ} (target : String) (seeds : List (Seed n))
    (regions : Regions n) (acfgAdj : Dict (Fin n) (List (Fin n))) :
    ∃ file, saveSancovAcfgJson target seeds regions acfgAdj = .ok file ∧
      file.parsed.WellFormed seeds.length ∧ ∃ sets : Sets seeds.length × Sets seeds.length,
      Linked sets ∧ file.successors = sets.1.toLists ∧ file.predecessors = sets.2.toLists := by
  let sets := linkSites (ownerSancov seeds.length regions.nodeAssignment) acfgAdj
  have hsuccs := sets.1.siteLists_toLists
  have hpreds := sets.2.siteLists_toLists
  unfold saveSancovAcfgJson
  dsimp only
  rw [if_neg (not_not.mpr hsuccs.1), if_neg (not_not.mpr hpreds.1)]
  exact ⟨_, rfl, ⟨⟨rfl, rfl⟩, rfl, hsuccs, hpreds⟩, sets, linked_linkSites acfgAdj, rfl, rfl⟩

end Extractor

open Extractor in
/-- The loader accepts exactly the files with the right schema, number of sites, lengths and ranges.
    All files that the extractor writes are accepted, and in them the two lists have the same
    edges. -/
theorem sancov_acfg_loader (path : String) :
    (∀ file sancovSites acfg, loadSancovAcfg path file sancovSites = .ok acfg ↔
      file.WellFormed sancovSites ∧
      acfg = ⟨0, file.nSancovSites, file.successors, file.predecessors⟩) ∧
    ∀ (n : ℕ) (target : String) (seeds : List (Seed n)) (regions : Regions n)
      (acfgAdj : Dict (Fin n) (List (Fin n))),
      ∃ file acfg, saveSancovAcfgJson target seeds regions acfgAdj = .ok file ∧
        loadSancovAcfg path file.parsed seeds.length = .ok acfg ∧ acfg.Transposed ∧
        ∀ u, u ∉ acfg.successors.getD u [] ∧ u ∉ acfg.predecessors.getD u [] := by
  refine ⟨fun file sancovSites acfg => loadSancovAcfg_eq_ok, fun n target seeds regions acfgAdj => ?_⟩
  obtain ⟨file, hsave, hfile, sets, hsets, hsuccs, hpreds⟩ :=
    saveSancovAcfgJson_eq_ok target seeds regions acfgAdj
  have hedge : ∀ u v, v ∈ file.successors.getD u [] ↔ u ∈ file.predecessors.getD v [] := by
    intro u v
    rw [hsuccs, hpreds, Sets.mem_toLists, Sets.mem_toLists, exists_comm]
    simp only [hsets.iff]
  have hirrefl : ∀ u, u ∉ file.successors.getD u [] := by
    intro u hu
    rw [hsuccs, Sets.mem_toLists] at hu
    obtain ⟨hlt, _, hmem⟩ := hu
    exact hsets.irrefl ⟨u, hlt⟩ hmem
  refine ⟨file, _, hsave, loadSancovAcfg_eq_ok.mpr ⟨hfile, rfl⟩, ⟨hedge, ?_⟩, fun u => ?_⟩
  · intro u v hv
    rw [show (SancovAcfgMeta.successors _) = sets.1.toLists from hsuccs, Sets.mem_toLists] at hv
    obtain ⟨hu, hv, -⟩ := hv
    exact ⟨hfile.sites.symm ▸ hu, hfile.sites.symm ▸ hv⟩
  · exact ⟨hirrefl u, fun hu => hirrefl u ((hedge u u).mpr hu)⟩

/-- A file whose lists contradict each other is accepted: the first site is on the frontier because
    of the second one, and the second one is not. -/
theorem contradictory_lists_accepted :
    loadSancovAcfg "acfg.json" ⟨1, "bofuzz-sancov-acfg-v1", 2, [[1], []], [[], []]⟩ 2 =
      .ok ⟨0, 2, [[1], []], [[], []]⟩ ∧
    ¬ (SancovAcfgMeta.mk 0 2 [[1], []] [[], []]).Transposed ∧
    recomputeFrontierSets [true, false] ⟨0, 2, [[1], []], [[], []]⟩ =
      ([true, false], [false, false]) := by
  refine ⟨rfl, fun h => ?_, by decide⟩
  have hpred : 0 ∈ ([[], []] : List (List ℕ)).getD 1 [] := (h.iff 0 1).mp (by decide)
  exact absurd hpred (by decide)

end Bofuzz
