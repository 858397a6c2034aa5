import Bofuzz.SancovIndexFeedback
import Mathlib.Algebra.BigOperators.Ring.List
import Mathlib.Data.List.GetD

/-! Conservation of credit (`frontier_credit_feedback.rs`).

    The edges that an addition reports are shared among the features by their mass around the
    frontier, so a credited addition adds exactly its edges to one of the two stores, and any other
    addition adds nothing. Stated at exact arithmetic (`Exact`): the credits of a store are then the
    edges of its credited additions, to the last one. -/

namespace Bofuzz
open F64 Effect Run List Exact SancovIndexFeedback

/-! ### The two stores -/

/-- Explore keeps its credits apart from those of the later phases. -/
inductive Store where | explore | runtime
  deriving DecidableEq

section
variable {F : Type} [F64 F] (s : State F)

/-- The store that the phase writes to. -/
def State.store : Store := if s.iter.phase = .explore then .explore else .runtime

def State.credits : Store → List F
  | .explore => (s.exploreCredit.map (·.credits)).getD []
  | .runtime => (s.runtimeCredit.map (·.credits)).getD []

def State.creditHistory : Store → List (CreditEntry F)
  | .explore => s.exploreCreditHistory
  | .runtime => s.runtimeCreditHistory

/-- The number of active coordinates. -/
def State.dim : ℕ := s.globals.activeFeatureNames.length

/-- The credits of a store after an addition. -/
def grown (credits delta : List F) (dim : ℕ) : List F :=
  List.zipWith (fun c d => max (c + d) (lit 0))
    (if credits.length ≠ dim then resizeWith credits dim (lit 0) else credits) delta

theorem add_credits (old : Option (CreditMeta F)) (iteration deltaEdges : ℕ) (delta : List F)
    (dim : ℕ) : ((old.getD {}).add iteration deltaEdges delta dim).credits
      = grown ((old.map (·.credits)).getD []) delta dim := by
  cases old <;> rfl

/-- `t` is `s` after `delta` was credited to the store of its phase. -/
structure Credited (s t : State F) (delta : List F) : Prop where
  credits : ∀ store, t.credits store =
    if store = s.store then grown (s.credits store) delta s.dim else s.credits store
  history : ∃ e, e.creditDelta = delta ∧ e.cumulativeCredits = grown (s.credits s.store) delta s.dim ∧
    ∀ store, t.creditHistory store =
      if store = s.store then s.creditHistory store ++ [e] else s.creditHistory store

theorem credited_of_frame {s t : State F} {delta : List F}
    (hcredits : t.credits s.store = grown (s.credits s.store) delta s.dim)
    (hhistory : ∃ e, e.creditDelta = delta ∧ e.cumulativeCredits = t.credits s.store ∧
      t.creditHistory s.store = s.creditHistory s.store ++ [e])
    (hother : ∀ store, store ≠ s.store →
      t.credits store = s.credits store ∧ t.creditHistory store = s.creditHistory store) :
    Credited s t delta := by
  obtain ⟨e, hdelta, hcumulative, hhistory⟩ := hhistory
  constructor
  · intro store
    by_cases h : store = s.store
    · rw [if_pos h, h, hcredits]
    · rw [if_neg h, (hother store h).1]
  · refine ⟨e, hdelta, hcumulative.trans hcredits, fun store => ?_⟩
    by_cases h : store = s.store
    · rw [if_pos h, h, hhistory]
    · rw [if_neg h, (hother store h).2]

theorem addCredits_credited (delta : CoverageDeltaMeta) (localNodes : List ℕ)
    (credit : List F) : Credited s (addCredits s delta localNodes credit) credit := by
  unfold addCredits
  by_cases hphase : s.iter.phase = .explore
  · have hstore : s.store = .explore := if_pos hphase
    simp only [if_pos hphase]
    refine credited_of_frame ?_ ?_ ?_ <;> rw [hstore]
    · exact add_credits s.exploreCredit _ _ _ _
    · exact ⟨_, rfl, rfl, rfl⟩
    · rintro (_ | _) hne
      · exact absurd rfl hne
      · exact ⟨rfl, rfl⟩
  · have hstore : s.store = .runtime := if_neg hphase
    simp only [if_neg hphase]
    refine credited_of_frame ?_ ?_ ?_ <;> rw [hstore]
    · exact add_credits s.runtimeCredit _ _ _ _
    · exact ⟨_, rfl, rfl, rfl⟩
    · rintro (_ | _) hne
      · exact ⟨rfl, rfl⟩
      · exact absurd rfl hne

/-! ### The mass of an addition -/

variable (a : Addition F)

/-- The mass of every active feature around the frontier that an addition moves. -/
def additionMasses : Except Error (List F) :=
  match s.acfg, a.before.featuresMatrix with
  | some acfg, some m =>
    localMass m.matrix (localFrontierNodes (SancovIndexFeedback.newlyCovered s a.hits) a.hits acfg)
      a.before.globals.activeFeatureNames
  | _, _ => .ok []

/-- The mass that all active features have there together. -/
def additionMass : F :=
  match additionMasses s a with
  | .ok mass => sum mass
  | .error _ => lit 0

theorem foldl_changed (n : ℕ) (newly : List ℕ) (acc : List Bool × Bool)
    (h : acc.2 = true ∨ ∃ i ∈ newly, i < n ∧ bitsetGet acc.1 i = false) :
    (newly.foldl (fun acc idx => if idx < n && !bitsetGet acc.1 idx then (acc.1.set idx true, true)
      else acc) acc).2 = true := by
  induction newly generalizing acc with
  | nil => simpa using h
  | cons idx newly ih =>
    rw [foldl_cons]
    refine ih _ ?_
    split_ifs with hidx
    · exact .inl rfl
    rcases h with h | ⟨i, hi, hlt, hno⟩
    · exact .inl h
    · rcases mem_cons.mp hi with rfl | hi
      · exact absurd (by simp [hlt, hno]) hidx
      · exact .inr ⟨i, hi, hlt, hno⟩

theorem bitsetGet_resizeWith {l : List Bool} {n i : ℕ} (hi : i < n) :
    bitsetGet (resizeWith l n false) i = bitsetGet l i := by
  unfold bitsetGet resizeWith
  rw [getD_eq_getElem?_getD, getD_eq_getElem?_getD]
  by_cases hl : i < l.length
  · rw [getElem?_append_left (by simp [hi, hl]), getElem?_take_of_lt hi]
  have hrep : (l.take n ++ replicate (n - l.length) false)[i]? = some false := by
    rw [getElem?_append_right (by simp; omega), getElem?_replicate, if_pos]
    simp only [length_take]
    omega
  rw [hrep, getElem?_eq_none (by omega)]
  rfl

variable {acfg : SancovAcfgMeta}

/-- An update that changes nothing was given no site of the graph that is not covered yet. -/
theorem le_of_not_changed {s : State F} (hacfg : s.acfg = some acfg) {hits : List ℕ}
    (h : (updateFrontierMeta s (newlyCovered s hits)).2 = false) :
    ∀ i ∈ newlyCovered s hits, acfg.nSancovSites ≤ i := by
  intro i hi
  by_contra hlt
  have hno : bitsetGet ((s.frontier.map (·.covered)).getD []) i = false := by
    simpa using (mem_filter.mp hi).2
  unfold updateFrontierMeta at h
  simp only [hacfg] at h
  split_ifs at h with hchanged
  refine hchanged (foldl_changed _ _ _ (.inr ⟨i, hi, not_le.mp hlt, ?_⟩))
  rw [bitsetGet_resizeWith (not_le.mp hlt)]
  cases hf : s.frontier with
  | none => simp [bitsetGet, not_le.mp hlt]
  | some f => simpa [hf] using hno

theorem localFrontierNodes_eq_nil {newly hits : List ℕ} (h : ∀ i ∈ newly, acfg.nSancovSites ≤ i) :
    localFrontierNodes newly hits acfg = [] := by
  unfold localFrontierNodes
  have hsame : ∀ out : List Bool, newly.foldl (fun out node =>
      if acfg.nSancovSites ≤ node then out
      else (acfg.predecessors.getD node []).foldl (fun out p =>
        if p < acfg.nSancovSites && bitsetGet (bitsetFromIndices acfg.nSancovSites hits) p then
          out.set p true else out) (out.set node true)) out = out := by
    intro out
    induction newly with
    | nil => rfl
    | cons node newly ih =>
      rw [foldl_cons, if_pos (h node mem_cons_self)]
      exact ih fun i hi => h i (.tail _ hi)
  simp only [hsame, filterMap_eq_nil_iff]
  rintro ⟨b, i⟩ hb
  have hb : b = false := (mem_replicate.mp (fst_mem_of_mem_zipIdx hb)).2
  simp [hb]

theorem localMass_nil (matrix : FeatureMap F) (names : List String) :
    localMass matrix [] names = .ok (replicate names.length (lit 0)) := by
  induction names with
  | nil => rfl
  | cons name names ih =>
    rw [localMass, ih]
    cases matrix name <;> rfl

/-- `t` is what the first feedback has recorded, with another frontier. -/
def OnlyFrontier (t : State F) : Prop :=
  ∃ frontier, t = { SancovIndexFeedback.record a.hits (a.meets s) with frontier }

/-- No feature has mass around the frontier that an addition moves, or a value is refused. -/
def Massless : Prop :=
  (∃ k, additionMasses s a = .ok (List.replicate k (lit 0))) ∨ ∃ e, additionMasses s a = .error e

theorem massless_of_le {s : State F} {a : Addition F} (hacfg : s.acfg = some acfg)
    (h : ∀ i ∈ newlyCovered s a.hits, acfg.nSancovSites ≤ i) : Massless s a := by
  refine .inl ?_
  unfold additionMasses
  rw [hacfg]
  split
  · next hsome _ =>
    cases hsome
    rw [localFrontierNodes_eq_nil h, localMass_nil]
    exact ⟨_, rfl⟩
  · exact ⟨0, rfl⟩

/-- What an addition does: the shares of its edges are credited, or there is no mass around the
    frontier and no store changes. -/
def Books (t' : State F) : Prop :=
  (∃ t nodes mass, OnlyFrontier s a t ∧ additionMasses s a = .ok mass ∧
    mass.length = a.before.dim ∧ t' = addCredits t (t.coverageDelta.getD {}) nodes
      (creditDelta mass (SancovIndexFeedback.deltaEdges (a.meets s)))) ∨
  Massless s a ∧ OnlyFrontier s a t'

theorem addStep_books : Books s a (addStep s a) := by
  have hmoved : OnlyFrontier s a (updateFrontierMeta (record a.hits (a.meets s))
      (newlyCovered s a.hits)).1 := updateFrontierMeta_frame _ _
  refine finalState_of_spec (P := Books s a) ?_
  have hnew : ((record a.hits (a.meets s)).coverageDelta.getD {}
      ).newlyCoveredSancov = newlyCovered s a.hits := rfl
  have hframe : ∀ t, OnlyFrontier s a t →
      t.globals.activeFeatureNames = a.before.globals.activeFeatureNames ∧ t.coverageDelta.getD {} =
        (record a.hits (a.meets s)).coverageDelta.getD {} := by
    rintro t ⟨_, rfl⟩
    exact ⟨rfl, rfl⟩
  simp only [appendMetadata, spec_bind, spec_get, hnew]
  split
  · next acfg m hacfg hm =>
    have hacfg : s.acfg = some acfg := hacfg
    have hm : a.before.featuresMatrix = some m := hm
    have hmasses : additionMasses s a = localMass m.matrix (localFrontierNodes
        (newlyCovered s a.hits) a.hits acfg)
        a.before.globals.activeFeatureNames := by
      simp only [additionMasses, hacfg, hm]
    split_ifs with hnil hskip
    · exact .inr ⟨massless_of_le hacfg (by simp [hnil]), s.frontier, rfl⟩
    · refine .inr ⟨?_, hmoved⟩
      rw [Bool.or_eq_true, (hframe _ hmoved).1, List.isEmpty_iff, Bool.not_eq_true'] at hskip
      rcases hskip with hchanged | hnames
      · exact massless_of_le hacfg (le_of_not_changed (s := record a.hits (a.meets s)) hacfg hchanged)
      · exact .inl ⟨0, by rw [hmasses, hnames]; rfl⟩
    · simp only [spec_bind, spec_ofResult, spec_set, (hframe _ hmoved).1, ← hmasses]
      refine ⟨fun mass hmass => ?_, fun e he => .inr ⟨.inr ⟨e, he⟩, hmoved⟩⟩
      refine .inl ⟨_, localFrontierNodes (newlyCovered s a.hits) a.hits acfg, mass,
        hmoved, hmass, localMass_length (hmasses ▸ hmass), ?_⟩
      rw [(hframe _ hmoved).2]
      rfl
  · next hnone =>
    refine .inr ⟨.inl ⟨0, ?_⟩, s.frontier, rfl⟩
    unfold additionMasses
    split
    · next acfg m hacfg hm => exact absurd hm (hnone acfg m hacfg)
    · rfl

end

/-! ### Shares -/

/-- The values of `xs` are the non-negative rationals `qs`. -/
structure Amounts (xs : List Exact) (qs : List ℚ) : Prop where
  eq : xs = qs.map .fin
  nonneg : ∀ q ∈ qs, 0 ≤ q

/-- Feature values are non-negative rationals. -/
def NonNegative (matrix : FeatureMap Exact) : Prop :=
  ∀ name arr, matrix name = some arr → ∃ qs, Amounts arr qs

variable {qs : List ℚ} {xs : List Exact}

theorem Amounts.length (h : Amounts xs qs) : qs.length = xs.length := by
  rw [h.eq, length_map]

theorem Amounts.getD (h : Amounts xs qs) (i : ℕ) : xs.getD i (lit 0) = .fin (qs.getD i 0) := by
  rw [h.eq, lit_eq, getD_map]

theorem Amounts.sum (h : Amounts xs qs) : sum xs = .fin qs.sum := by
  rw [h.eq, sum_map_fin]

theorem getD_nonneg (h : ∀ q ∈ qs, 0 ≤ q) (i : ℕ) : 0 ≤ qs.getD i 0 := by
  by_cases hi : i < qs.length
  · rw [getD_eq_getElem _ _ hi]
    exact h _ (getElem_mem hi)
  · rw [getD_eq_default _ _ (not_lt.mp hi)]

theorem nodeMass_fin {arr : List Exact} (h : Amounts arr qs) (nodes : List ℕ) {p : ℚ} (hp : 0 ≤ p) :
    ∃ q, 0 ≤ q ∧ nodeMass arr nodes (.fin p) = .ok (.fin q) := by
  induction nodes generalizing p with
  | nil => exact ⟨p, hp, rfl⟩
  | cons node nodes ih =>
    have hvalue := getD_nonneg h.nonneg node
    obtain ⟨q, hq, heq⟩ := ih (add_nonneg hp hvalue)
    refine ⟨q, hq, ?_⟩
    rw [nodeMass, h.getD, lit_eq, lt_fin, if_neg (by simpa using hvalue), ← heq]
    rfl

theorem localMass_fin {matrix : FeatureMap Exact} (h : NonNegative matrix) (nodes : List ℕ)
    (names : List String) :
    ∃ mass qs, localMass matrix nodes names = .ok mass ∧ Amounts mass qs := by
  induction names with
  | nil => exact ⟨[], [], rfl, rfl, by simp⟩
  | cons name names ih =>
    obtain ⟨mass, qs, hmass, hqs⟩ := ih
    have hhead : ∃ q, 0 ≤ q ∧ localMass matrix nodes (name :: names) = .ok (.fin q :: mass) := by
      cases harr : matrix name with
      | none =>
        refine ⟨0, le_refl 0, ?_⟩
        rw [localMass, harr, hmass]
        rfl
      | some arr =>
        obtain ⟨ps, hps⟩ := h name arr harr
        obtain ⟨q, hq, heq⟩ := nodeMass_fin hps nodes (le_refl 0)
        refine ⟨q, hq, ?_⟩
        rw [localMass, harr, hmass]
        simp only [lit_eq, heq]
        rfl
    obtain ⟨q, hq, heq⟩ := hhead
    exact ⟨.fin q :: mass, q :: qs, heq, by rw [hqs.eq, map_cons], forall_mem_cons.mpr ⟨hq, hqs.nonneg⟩⟩

/-- The shares of the edges add up to the edges when there is mass, and to nothing otherwise. -/
theorem creditDelta_fin {mass : List Exact} {ms : List ℚ} (h : Amounts mass ms) (edges : ℕ) :
    ∃ ds, Amounts (creditDelta mass edges) ds ∧
      ds.sum = if F64.lt eps (F64.sum mass) then (edges : ℚ) else 0 := by
  have hlt : F64.lt eps (F64.sum mass) = decide (1 / 1000000 < ms.sum) := by
    rw [h.sum]
    exact lt_fin _ _
  simp only [creditDelta, hlt]
  by_cases hshare : 1 / 1000000 < ms.sum ∧ 0 < edges
  · obtain ⟨hmass, hedges⟩ := hshare
    have hpos : 0 < ms.sum := lt_trans (by norm_num) hmass
    refine ⟨ms.map fun m => edges * m / ms.sum, ⟨?_, ?_⟩, ?_⟩
    · rw [if_pos (by simp only [hmass, hedges, decide_true, Bool.and_self]), h.sum, h.eq, map_map, map_map]
      refine map_congr_left fun m hm => ?_
      have hm := h.nonneg m hm
      rw [Function.comp_apply, ofNat, lit_eq, lit_eq, fin_mul,
        fin_div _ hpos.ne', max_fin_zero (by positivity), Function.comp_apply]
    · intro q hq
      obtain ⟨m, hm, rfl⟩ := mem_map.mp hq
      have hm := h.nonneg m hm
      positivity
    · have hsum : (ms.map fun m => (edges : ℚ) * m / ms.sum).sum = edges / ms.sum * ms.sum := by
        conv_rhs => rw [← map_id ms, ← sum_map_mul_left]
        refine congrArg List.sum (map_congr_left fun m _ => ?_)
        rw [map_id, id]
        ring
      rw [hsum, if_pos (decide_eq_true hmass), div_mul_cancel₀ _ hpos.ne']
  · refine ⟨replicate mass.length 0, ⟨?_, by simp⟩, ?_⟩
    · rw [if_neg, lit_eq, map_replicate]
      simpa using hshare
    · rw [sum_eq_zero fun q hq => eq_of_mem_replicate hq]
      split_ifs with hmass
      · have hedges : ¬ 0 < edges := fun hedges => hshare ⟨of_decide_eq_true hmass, hedges⟩
        rw [Nat.eq_zero_of_not_pos hedges, Nat.cast_zero]
      · rfl

theorem zipWith_add : ∀ {cs ds : List ℚ}, cs.length = ds.length →
    (zipWith (· + ·) cs ds).sum = cs.sum + ds.sum ∧
      ∀ i, (zipWith (· + ·) cs ds).getD i 0 = cs.getD i 0 + ds.getD i 0
  | [], [], _ => by simp
  | c :: cs, d :: ds, h => by
    obtain ⟨hsum, hget⟩ := zipWith_add (Nat.succ.inj h)
    refine ⟨?_, fun i => ?_⟩
    · rw [zipWith_cons_cons, sum_cons, hsum, sum_cons, sum_cons]
      ring
    · cases i with
      | zero => rfl
      | succ i => exact hget i
  | [], _ :: _, h => by simp at h
  | _ :: _, [], h => by simp at h

theorem zipWith_amounts : ∀ {cs ds : List ℚ}, (∀ q ∈ cs, 0 ≤ q) → (∀ q ∈ ds, 0 ≤ q) →
    Amounts (zipWith (fun c d => F64.max (c + d) (lit 0)) (cs.map fin) (ds.map fin)) (zipWith (· + ·) cs ds)
  | [], _, _, _ => ⟨rfl, by simp⟩
  | _ :: _, [], _, _ => ⟨rfl, by simp⟩
  | c :: cs, d :: ds, hcs, hds => by
    obtain ⟨hc, hcs⟩ := forall_mem_cons.mp hcs
    obtain ⟨hd, hds⟩ := forall_mem_cons.mp hds
    have ih := zipWith_amounts hcs hds
    have hsum : 0 ≤ c + d := add_nonneg hc hd
    refine ⟨?_, forall_mem_cons.mpr ⟨hsum, ih.nonneg⟩⟩
    rw [map_cons, map_cons, zipWith_cons_cons, ih.eq, fin_add, lit_eq, max_fin_zero hsum]
    rfl

/-- Growing a store adds the shares, coordinate by coordinate. -/
theorem grown_fin {credits delta : List Exact} {cs ds : List ℚ} {dim : ℕ} (hcs : Amounts credits cs)
    (hds : Amounts delta ds) (hdim : delta.length = dim) (hle : credits.length ≤ dim) :
    ∃ rs, Amounts (grown credits delta dim) rs ∧ rs.length = dim ∧ rs.sum = cs.sum + ds.sum ∧
      ∀ i, rs.getD i 0 = cs.getD i 0 + ds.getD i 0 := by
  -- the store is as long as the shares once it is padded
  have hpad : (if credits.length ≠ dim then resizeWith credits dim (lit 0) else credits)
      = (cs ++ replicate (dim - cs.length) 0).map fin := by
    have hresize : resizeWith credits dim (lit 0)
        = (cs ++ replicate (dim - cs.length) 0).map fin := by
      rw [resizeWith, take_of_length_le hle, map_append, map_replicate, ← hcs.eq, hcs.length, lit_eq]
    split_ifs with h
    · exact hresize
    · rw [← hresize, resizeWith_self _ (not_not.mp h)]
  have hlen : (cs ++ replicate (dim - cs.length) 0).length = ds.length := by
    rw [hds.length, hdim, length_append, length_replicate, hcs.length]
    omega
  obtain ⟨hsum, hget⟩ := zipWith_add hlen
  refine ⟨zipWith (· + ·) (cs ++ replicate (dim - cs.length) 0) ds, ?_, ?_, ?_, fun i => ?_⟩
  · rw [grown, hpad, hds.eq]
    refine zipWith_amounts (forall_mem_append.mpr ⟨hcs.nonneg, fun q hq => ?_⟩) hds.nonneg
    rw [eq_of_mem_replicate hq]
  · rw [length_zipWith, hlen, min_self, hds.length, hdim]
  · rw [hsum, sum_append, sum_eq_zero (l := replicate _ _) fun q hq =>
      eq_of_mem_replicate hq, add_zero]
  · rw [hget]
    congr 1
    rcases lt_or_ge i cs.length with hi | hi
    · rw [getD_append _ _ _ _ hi]
    · rw [getD_append_right _ _ _ _ hi, getD_eq_getElem?_getD,
        getElem?_getD_replicate_default_eq, getD_eq_default _ _ hi]

/-! ### The ledger -/

/-- Each entry's cumulative credits are those of the entry before it plus its own share, the first
    entry following `previous`. -/
def Chained (previous : List Exact) : List (CreditEntry Exact) → Prop
  | [] => True
  | e :: es => (∀ i, e.cumulativeCredits.getD i (lit 0)
      = previous.getD i (lit 0) + e.creditDelta.getD i (lit 0)) ∧
    Chained e.cumulativeCredits es

/-- The cumulative credits after a history. -/
def lastCumulative (previous : List Exact) (es : List (CreditEntry Exact)) : List Exact :=
  es.foldl (fun _ e => e.cumulativeCredits) previous

theorem chained_concat {previous : List Exact} {es : List (CreditEntry Exact)}
    {e : CreditEntry Exact} (h : Chained previous es) (he : ∀ i, e.cumulativeCredits.getD i (lit 0)
      = (lastCumulative previous es).getD i (lit 0) + e.creditDelta.getD i (lit 0)) :
    Chained previous (es ++ [e]) := by
  induction es generalizing previous with
  | nil => exact ⟨he, trivial⟩
  | cons e' es ih => exact ⟨h.1, ih h.2 he⟩

/-- The stores hold `total` edges, their coordinates are non-negative, and the histories say how
    they came about. -/
structure Ledger (s : State Exact) (total : Store → ℕ) : Prop where
  amounts : ∀ store, ∃ qs, Amounts (s.credits store) qs ∧ qs.sum = total store
  chained : ∀ store, Chained [] (s.creditHistory store)
  last : ∀ store, lastCumulative [] (s.creditHistory store) = s.credits store

/-- The edges that an addition reports. -/
def reportedEdges (s : State Exact) (a : Addition Exact) : ℕ :=
  ((addStep s a).coverageDelta.getD {}).deltaEdges

theorem reportedEdges_eq (s : State Exact) (a : Addition Exact) :
    reportedEdges s a = deltaEdges (a.meets s) := by
  rw [reportedEdges, addStep_coverageDelta]
  rfl

/-- The edges that an addition adds to a store: those it reports, if the addition belongs to the
    store and the mass around the frontier exceeds `EPS`. -/
def counted (store : Store) (s : State Exact) (a : Addition Exact) : ℕ :=
  if store = a.before.store ∧ F64.lt eps (additionMass s a) = true then reportedEdges s a else 0

variable {a : Addition Exact}

theorem additionMasses_fin (h : ∀ m ∈ a.before.featuresMatrix, NonNegative m.matrix)
    (s : State Exact) :
    ∃ mass qs, additionMasses s a = .ok mass ∧ Amounts mass qs := by
  unfold additionMasses
  split
  · next hm => exact localMass_fin (h _ hm) _ _
  · exact ⟨[], [], rfl, rfl, by simp⟩

variable {s : State Exact}

theorem counted_of_massless (h : Massless s a) (store : Store) : counted store s a = 0 := by
  have hmass : additionMass s a = .fin 0 := by
    unfold additionMass
    rcases h with ⟨k, hk⟩ | ⟨e, he⟩
    · have hzero : (replicate k (lit 0) : List Exact) = (replicate k 0).map fin := by
        rw [map_replicate, lit_eq]
      rw [hk, hzero]
      simp only [sum_map_fin]
      rw [sum_eq_zero fun q hq => eq_of_mem_replicate hq]
    · rw [he, lit_eq]
  have heps : F64.lt eps (additionMass s a) = false := by
    rw [hmass]
    exact (lt_fin _ _).trans (decide_eq_false (by norm_num))
  rw [counted, if_neg]
  rintro ⟨_, hlt⟩
  rw [heps] at hlt
  cases hlt

variable {total : Store → ℕ}

theorem Ledger.credit {t u : State Exact} (h : Ledger s total)
    (hcredits : ∀ store, t.credits store = s.credits store)
    (hhistory : ∀ store, t.creditHistory store = s.creditHistory store) {delta : List Exact}
    {ds : List ℚ} (hu : Credited t u delta) (hds : Amounts delta ds) (hlen : delta.length = t.dim)
    (hdim : (s.credits t.store).length ≤ t.dim) (edges : ℕ) (hsum : ds.sum = edges) :
    Ledger u fun store => total store + if store = t.store then edges else 0 := by
  obtain ⟨cs, hcs, htotal⟩ := h.amounts t.store
  obtain ⟨rs, hrs, _, hrsum, hrget⟩ := grown_fin hcs hds hlen hdim
  obtain ⟨e, hdelta, hcumulative, hentry⟩ := hu.history
  rw [hcredits] at hcumulative
  constructor
  · intro store
    rw [hu.credits, hcredits]
    by_cases hstore : store = t.store
    · subst hstore
      refine ⟨rs, by rw [if_pos rfl]; exact hrs, ?_⟩
      rw [if_pos rfl, hrsum, htotal, hsum, Nat.cast_add]
    · rw [if_neg hstore, if_neg hstore]
      exact h.amounts store
  · intro store
    rw [hentry, hhistory]
    split_ifs with hstore
    · subst hstore
      refine chained_concat (h.chained _) fun i => ?_
      rw [h.last, hcumulative, hdelta, hrs.getD, hcs.getD, hds.getD, hrget, fin_add]
    · exact h.chained store
  · intro store
    rw [hentry, hu.credits, hhistory, hcredits]
    split_ifs with hstore
    · subst hstore
      rw [lastCumulative, foldl_append, foldl_cons, foldl_nil, hcumulative]
    · exact h.last store

/-- The frontier is no part of the stores. -/
theorem OnlyFrontier.stores {t : State Exact} (h : OnlyFrontier s a t) :
    (∀ store, t.credits store = s.credits store) ∧
      ∀ store, t.creditHistory store = s.creditHistory store := by
  obtain ⟨_, rfl⟩ := h
  exact ⟨fun store => by cases store <;> rfl, fun store => by cases store <;> rfl⟩

/-- An addition keeps the ledger, and books its edges in the store of its phase. -/
theorem addStep_ledger (h : Ledger s total)
    (hfeatures : ∀ m ∈ a.before.featuresMatrix, NonNegative m.matrix)
    (hdim : (s.credits a.before.store).length ≤ a.before.dim) :
    Ledger (addStep s a) fun store => total store + counted store s a := by
  rcases addStep_books s a with ⟨t, nodes, mass, ht, hmass, hlen, hstep⟩ | ⟨hmassless, hstep⟩
  · obtain ⟨mass', qs, hmass', hqs⟩ := additionMasses_fin hfeatures s
    obtain rfl : mass = mass' := Except.ok.inj (hmass.symm.trans hmass')
    obtain ⟨ds, hds, hsum⟩ := creditDelta_fin hqs (deltaEdges (a.meets s))
    have hcounted : ∀ store, counted store s a = if store = a.before.store then
        (if F64.lt eps (F64.sum mass) = true then reportedEdges s a else 0) else 0 := by
      intro store
      simp only [counted, additionMass, hmass, ite_and]
    obtain ⟨hcredits, hhistory⟩ := ht.stores
    obtain ⟨_, rfl⟩ := ht
    simp only [hcounted, hstep]
    refine h.credit hcredits hhistory (addCredits_credited _ _ nodes _) hds ?_ hdim _ ?_
    · rw [creditDelta_length, hlen]
      rfl
    · rw [hsum, reportedEdges_eq]
      split_ifs <;> simp
  · have hsame : (fun store => total store + counted store s a) = total := by
      funext store
      rw [counted_of_massless hmassless, add_zero]
    obtain ⟨hcredits, hhistory⟩ := hstep.stores
    rw [hsame]
    constructor <;> intro store <;> simp only [hcredits, hhistory]
    · exact h.amounts store
    · exact h.chained store
    · exact h.last store

theorem grown_length_le {F : Type} [F64 F] (credits delta : List F) (dim : ℕ) :
    (grown credits delta dim).length ≤ dim := by
  rw [grown, length_zipWith]
  split_ifs with h
  · rw [resizeWith_length]
    exact min_le_left _ _
  · rw [not_not.mp h]
    exact min_le_left _ _

theorem addStep_credits_length (hdim : (s.credits a.before.store).length ≤ a.before.dim)
    (store : Store) :
    ((addStep s a).credits store).length
      ≤ if store = a.before.store then a.before.dim else (s.credits store).length := by
  rcases addStep_books s a with ⟨t, nodes, mass, ht, _, _, hstep⟩ | ⟨_, hstep⟩
  · have hcredits := ht.stores.1
    obtain ⟨_, rfl⟩ := ht
    rw [hstep, (addCredits_credited _ _ _ _).credits, hcredits]
    split_ifs with h₁ h₂ h₂
    · exact grown_length_le _ _ _
    · exact absurd h₁ h₂
    · exact absurd h₂ h₁
    · exact le_refl _
  · rw [hstep.stores.1]
    split_ifs with h
    · rw [h]
      exact hdim
    · exact le_refl _

/-- Any history of additions keeps the ledger, as long as the active coordinates of a store never
    get fewer. -/
theorem run_ledger (as : List (Addition Exact)) (h : Ledger s total)
    (hfeatures : ∀ a ∈ as, ∀ m ∈ a.before.featuresMatrix, NonNegative m.matrix)
    (hdim : ∀ a ∈ as, (s.credits a.before.store).length ≤ a.before.dim)
    (hdims : as.Pairwise fun a b => a.before.store = b.before.store → a.before.dim ≤ b.before.dim) :
    Ledger (run addStep s as) fun store => total store + Run.total addStep (counted store) s as := by
  induction as generalizing s total with
  | nil => exact h
  | cons a as ih =>
    obtain ⟨hlater, hdims⟩ := pairwise_cons.mp hdims
    have ha := hdim a mem_cons_self
    have hstep := addStep_ledger h (hfeatures a mem_cons_self) ha
    have hrest := ih hstep (fun b hb => hfeatures b (.tail _ hb)) (fun b hb => ?_) hdims
    · simpa only [run, foldl_cons, Run.total, add_assoc] using hrest
    · refine (addStep_credits_length ha _).trans ?_
      split_ifs with hstore
      · exact hlater b hb hstore.symm
      · exact hdim b (.tail _ hb)

/-- The edges reported since the start add up to the last count, if the count never falls. -/
theorem run_edges (as : List (Addition Exact)) (s : State Exact)
    (hle : ∀ a ∈ as, s.coverageProgress.getD 0 ≤ a.before.edges.getD 0)
    (hmono : (as.map (·.before.edges.getD 0)).Pairwise (· ≤ ·)) :
    s.coverageProgress.getD 0 + Run.total addStep reportedEdges s as
      = (as.map (·.before.edges.getD 0)).getLastD (s.coverageProgress.getD 0) := by
  induction as generalizing s with
  | nil => rfl
  | cons a as ih =>
    obtain ⟨hlater, hmono⟩ := pairwise_cons.mp hmono
    have hprogress := addStep_coverageProgress s a
    have hrest := ih (addStep s a) (fun b hb => ?_) hmono
    · have hreported : reportedEdges s a = a.before.edges.getD 0 - s.coverageProgress.getD 0 :=
        reportedEdges_eq s a
      have ha := hle a mem_cons_self
      rw [hprogress, Option.getD_some] at hrest
      rw [map_cons, getLastD_cons, ← hrest, Run.total, hreported]
      omega
    · rw [hprogress]
      exact hlater _ (mem_map_of_mem hb)

/-- A campaign that has collected nothing yet. -/
structure Uncredited (s : State Exact) : Prop where
  exploreCredit : s.exploreCredit = none
  runtimeCredit : s.runtimeCredit = none
  exploreCreditHistory : s.exploreCreditHistory = []
  runtimeCreditHistory : s.runtimeCreditHistory = []
  coverageProgress : s.coverageProgress = none

theorem Uncredited.credits (h : Uncredited s) : ∀ store, s.credits store = []
  | .explore => by rw [State.credits, h.exploreCredit]; rfl
  | .runtime => by rw [State.credits, h.runtimeCredit]; rfl

theorem Uncredited.ledger (h : Uncredited s) : Ledger s fun _ => 0 := by
  have hhistory : ∀ store, s.creditHistory store = [] := by
    rintro (_ | _)
    · exact h.exploreCreditHistory
    · exact h.runtimeCreditHistory
  constructor <;> intro store
  · exact ⟨[], ⟨h.credits store, by simp⟩, by simp⟩
  · rw [hhistory]
    trivial
  · rw [hhistory, h.credits]
    rfl

/-- Credit conservation: a store holds the edges of its credited additions, no coordinate is
    negative, the histories add up entry by entry, and no reported edge is lost or counted twice. -/
theorem credit_conservation (s : State Exact) (hs : Uncredited s) (as : List (Addition Exact))
    (hfeatures : ∀ a ∈ as, ∀ m ∈ a.before.featuresMatrix, NonNegative m.matrix)
    (hdims : as.Pairwise fun a b => a.before.store = b.before.store → a.before.dim ≤ b.before.dim) :
    (∀ store, sum ((run addStep s as).credits store) = .fin (Run.total addStep (counted store) s as)) ∧
    (∀ store, ∀ c ∈ (run addStep s as).credits store, ∃ q, c = .fin q ∧ 0 ≤ q) ∧
    (∀ store, Chained [] ((run addStep s as).creditHistory store)) ∧
    ((as.map (·.before.edges.getD 0)).Pairwise (· ≤ ·) →
      Run.total addStep reportedEdges s as = (as.map (·.before.edges.getD 0)).getLastD 0) := by
  have h := run_ledger as hs.ledger hfeatures (fun a _ => by simp [hs.credits]) hdims
  refine ⟨fun store => ?_, fun store c hc => ?_, h.chained, fun hmono => ?_⟩
  · obtain ⟨qs, hqs, hsum⟩ := h.amounts store
    rw [hqs.sum, hsum, zero_add]
  · obtain ⟨qs, hqs, _⟩ := h.amounts store
    rw [hqs.eq] at hc
    obtain ⟨q, hq, rfl⟩ := mem_map.mp hc
    exact ⟨q, rfl, hqs.nonneg q hq⟩
  · have hedges := run_edges as s (fun a _ => by simp [hs.coverageProgress]) hmono
    simpa [hs.coverageProgress] using hedges

namespace Demo

/-- Two sites, the second one reached from the first, and one feature. -/
def started : State Exact := { acfg := some ⟨0, 2, [[1], []], [[], [0]]⟩ }

/-- An addition in the given phase, after `edges` edges were covered. -/
def credited (phase : TpePhase) (edges : ℕ) (hits : List ℕ) : Addition Exact where
  hits
  before :=
    { globals := { activeFeatureNames := ["loops"] }
      iteration := some { phase }
      featuresMatrix := some
        ⟨fun name => if name = "loops" then some [.fin 1, .fin (1 / 2)] else none, 2⟩
      edges := some edges }

/-- Three edges in Explore, two more in a window. -/
def twoPhases : List (Addition Exact) := [credited .explore 3 [0], credited .activeWindow 5 [0, 1]]

theorem twoPhases_features :
    ∀ a ∈ twoPhases, ∀ m ∈ a.before.featuresMatrix, NonNegative m.matrix := by
  intro a ha m hm name arr harr
  obtain rfl : m = ⟨fun name => if name = "loops" then some [.fin 1, .fin (1 / 2)] else none, 2⟩ := by
    rcases mem_cons.mp ha with rfl | ha
    · exact (Option.some.inj hm).symm
    · obtain rfl := mem_singleton.mp ha
      exact (Option.some.inj hm).symm
  simp only [Option.ite_none_right_eq_some, Option.some.injEq] at harr
  obtain ⟨_, rfl⟩ := harr
  exact ⟨[1, 1 / 2], rfl, by simp⟩

end Demo

theorem credit_conservation_demo :
    sum ((run addStep Demo.started Demo.twoPhases).credits .explore)
      = .fin (Run.total addStep (counted .explore) Demo.started Demo.twoPhases) ∧
    Run.total addStep (counted .explore) Demo.started Demo.twoPhases = 3 :=
  ⟨(credit_conservation Demo.started ⟨rfl, rfl, rfl, rfl, rfl⟩ Demo.twoPhases Demo.twoPhases_features
    (by simp [Demo.twoPhases, Demo.credited, State.dim])).1 .explore, by decide +kernel⟩

end Bofuzz
