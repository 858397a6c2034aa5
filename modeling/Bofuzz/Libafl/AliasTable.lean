import Bofuzz.Error
import Bofuzz.Lib.AliasMethod

/-! The alias table of the weighted scheduler (`libafl/src/schedulers/weighted.rs`).

    `createAliasTable` builds the table in place: two work lists are kept in maps from positions to
    corpus ids, a counter being the length of the list in use, and popped entries are overwritten.
    `buildTables_eq` says that it computes the loop of the alias method, for any arithmetic; with
    exact weights the table is therefore exact. -/

namespace Bofuzz.Weighted
open F64 AliasMethod Function Loop Exact
open Option hiding map_map
open List hiding sum

variable {F : Type} [F64 F]

/-- `HashMap`, read and written by key. -/
abbrev HashMap (κ α : Type) := κ → Option α

/-- `Option::unwrap`. -/
def unwrap {α : Type} : Option α → Except Error α
  | some a => .ok a
  | none => .error .unwrapPanic

/-- The tables of `WeightedScheduleMetadata`. -/
structure Tables (F : Type) where
  aliasTable : HashMap CorpusId CorpusId := fun _ => none
  aliasProbability : HashMap CorpusId F := fun _ => none

/-- The local variables of `create_alias_table` once the weights are scaled. -/
structure Work (F : Type) extends Tables F where
  pArr : HashMap CorpusId F
  sArr : HashMap ℕ CorpusId := fun _ => none
  lArr : HashMap ℕ CorpusId := fun _ => none
  nS : ℕ := 0
  nL : ℕ := 0

/-- The weights of all entries and their sum. -/
def weigh (compute : CorpusId → Except Error F) :
    List CorpusId → HashMap CorpusId F → F → Except Error (HashMap CorpusId F × F)
  | [], weights, sum => .ok (weights, sum)
  | i :: ids, weights, sum => do
    let weight ← compute i
    weigh compute ids (update weights i (some weight)) (sum + weight)

/-- The weights scaled to one unit on average. -/
def scale (n : ℕ) (weights : HashMap CorpusId F) (sum : F) : HashMap CorpusId F :=
  fun i => (weights i).map fun w => w * F64.ofNat n / sum

/-- Divide the entries into the queues `S` and `L`. -/
def divide : List CorpusId → Work F → Except Error (Work F)
  | [], w => .ok w
  | s :: ids, w => do
    let p ← unwrap (w.pArr s)
    if F64.lt p (F64.lit 1) then
      divide ids { w with sArr := update w.sArr w.nS (some s), nS := w.nS + 1 }
    else divide ids { w with lArr := update w.lArr w.nL (some s), nL := w.nL + 1 }

/-- One round of the main loop, entered with entries in both queues. -/
def pairUp (w : Work F) : Except Error (Work F) := do
  let nS := w.nS - 1
  let nL := w.nL - 1
  let a ← unwrap (w.sArr nS)
  let g ← unwrap (w.lArr nL)
  let pa ← unwrap (w.pArr a)
  let aliasProbability := update w.aliasProbability a (some pa)
  let aliasTable := update w.aliasTable a (some g)
  let pg ← unwrap (w.pArr g)
  let pArr := update w.pArr g (some (pg + (pa - F64.lit 1)))
  let pg ← unwrap (pArr g)
  if F64.lt pg (F64.lit 1) then
    let _ ← unwrap (w.sArr nS)
    pure { w with aliasProbability, aliasTable, pArr, nL
                  sArr := update w.sArr nS (some g), nS := nS + 1 }
  else
    let _ ← unwrap (w.lArr nL)
    pure { w with aliasProbability, aliasTable, pArr, nS
                  lArr := update w.lArr nL (some g), nL := nL + 1 }

/-- `while n_s > 0 && n_l > 0`; a round uses up one entry, so that the number of entries bounds the
    rounds. -/
def pairAll : ℕ → Work F → Except Error (Work F)
  | 0, w => .ok w
  | fuel + 1, w =>
    if 0 < w.nS ∧ 0 < w.nL then do
      let w ← pairUp w
      pairAll fuel w
    else .ok w

/-- The last two loops: what is left of a queue is taken with certainty. -/
def drain (arr : HashMap ℕ CorpusId) : ℕ → HashMap CorpusId F → Except Error (HashMap CorpusId F)
  | 0, aliasProbability => .ok aliasProbability
  | n + 1, aliasProbability => do
    let i ← unwrap (arr n)
    drain arr n (update aliasProbability i (some (F64.lit 1)))

variable (ids : List CorpusId)

/-- `create_alias_table` after the weights are scaled. -/
def buildTables (pArr : HashMap CorpusId F) : Except Error (Tables F) := do
  let w ← divide ids.reverse { pArr }
  let w ← pairAll (w.nS + w.nL) w
  let aliasProbability ← drain w.lArr w.nL w.aliasProbability
  let aliasProbability ← drain w.sArr w.nS aliasProbability
  pure { aliasTable := w.aliasTable, aliasProbability }

/-- `WeightedScheduler::create_alias_table` for a corpus with the given ids, `compute` being the
    score of an entry. -/
def createAliasTable (compute : CorpusId → Except Error F) : Except Error (Tables F) := do
  let (weights, sum) ← weigh compute ids (fun _ => none) (F64.lit 0)
  buildTables ids (scale ids.length weights sum)

/-- The entry that `next` takes for a drawn entry, `below` being the comparison with the drawn
    number. -/
def pick (t : Tables F) (s : CorpusId) (below : F → Bool) : Except Error CorpusId := do
  let p ← unwrap (t.aliasProbability s)
  if below p then pure s else unwrap (t.aliasTable s)

/-! ### The work lists -/

/-- `arr` holds the list from position zero on, its head on top. -/
def IsStack (arr : HashMap ℕ CorpusId) : List CorpusId → Prop
  | [] => True
  | x :: xs => arr xs.length = some x ∧ IsStack arr xs

variable {arr : HashMap ℕ CorpusId}

theorem IsStack.update {xs : List CorpusId} (h : IsStack arr xs) {n : ℕ} (hn : xs.length ≤ n)
    (v : Option CorpusId) : IsStack (update arr n v) xs := by
  induction xs with
  | nil => trivial
  | cons x xs ih =>
    rw [length_cons] at hn
    refine ⟨?_, ih h.2 (by omega)⟩
    rw [update_of_ne (by omega), h.1]

theorem IsStack.push {xs : List CorpusId} (h : IsStack arr xs) (x : CorpusId) :
    IsStack (Function.update arr xs.length (some x)) (x :: xs) :=
  ⟨update_self _ _ _, h.update le_rfl _⟩

/-- What the loop compares and computes. -/
def isSmall (p : F) : Bool := F64.lt p (F64.lit 1)

def give (pg pa : F) : F := pg + (pa - F64.lit 1)

/-- The local variables hold the state of the loop of the alias method. -/
structure Holds (w : Work F) (l : Loop CorpusId F) : Prop where
  small : IsStack w.sArr l.small
  large : IsStack w.lArr l.large
  nS : w.nS = l.small.length
  nL : w.nL = l.large.length
  mass : ∀ i ∈ ids, w.pArr i = some (l.mass i)
  prob : w.aliasProbability = l.prob
  partner : w.aliasTable = l.partner

variable {ids : List CorpusId} {w : Work F} {l : Loop CorpusId F}

theorem divide_holds : ∀ (xs : List CorpusId), (∀ i ∈ xs, i ∈ ids) → ∀ (w : Work F)
    (l : Loop CorpusId F), Holds ids w l → ∃ w', divide xs w = .ok w' ∧ Holds ids w'
      { l with small := (xs.filter fun i => isSmall (l.mass i)).reverse ++ l.small
               large := (xs.filter fun i => !isSmall (l.mass i)).reverse ++ l.large }
  | [], _, w, l, h => ⟨w, rfl, h⟩
  | s :: xs, hxs, w, l, h => by
    have hp := h.mass s (hxs s mem_cons_self)
    have hrest : ∀ i ∈ xs, i ∈ ids := fun i hi => hxs i (.tail _ hi)
    unfold divide
    rw [hp]
    by_cases hsmall : isSmall (l.mass s) = true
    · obtain ⟨w', hw', hholds⟩ := divide_holds xs hrest
        { w with sArr := update w.sArr w.nS (some s), nS := w.nS + 1 }
        { l with small := s :: l.small }
        ⟨by rw [h.nS]; exact h.small.push s, h.large, by rw [h.nS]; rfl, h.nL, h.mass, h.prob, h.partner⟩
      refine ⟨w', ?_, ?_⟩
      · simp only [unwrap, bind, Except.bind]
        exact (if_pos hsmall).trans hw'
      · simpa [hsmall] using hholds
    · obtain ⟨w', hw', hholds⟩ := divide_holds xs hrest
        { w with lArr := update w.lArr w.nL (some s), nL := w.nL + 1 }
        { l with large := s :: l.large }
        ⟨h.small, by rw [h.nL]; exact h.large.push s, h.nS, by rw [h.nL]; rfl, h.mass, h.prob, h.partner⟩
      refine ⟨w', ?_, ?_⟩
      · simp only [unwrap, bind, Except.bind]
        exact (if_neg hsmall).trans hw'
      · simpa [hsmall] using hholds

theorem pairUp_holds (h : Holds ids w l) {a g : CorpusId} {small large : List CorpusId}
    (hs : l.small = a :: small) (hl : l.large = g :: large) (ha : a ∈ ids) (hg : g ∈ ids) :
    ∃ w', pairUp w = .ok w' ∧ Holds ids w' (pair isSmall give l a g small large) := by
  have hsmall := h.small
  have hlarge := h.large
  rw [hs] at hsmall
  rw [hl] at hlarge
  have hnS : w.nS - 1 = small.length := by rw [h.nS, hs]; rfl
  have hnL : w.nL - 1 = large.length := by rw [h.nL, hl]; rfl
  have hmass : ∀ i ∈ ids, update w.pArr g (some (l.mass g + (l.mass a - lit 1))) i
      = some (update l.mass g (give (l.mass g) (l.mass a)) i) := by
    intro i hi
    by_cases hig : i = g
    · subst hig
      rw [update_self, update_self]
      rfl
    · rw [update_of_ne hig, update_of_ne hig, h.mass i hi]
  unfold pairUp pair
  simp only [hnS, hnL, hsmall.1, hlarge.1, h.mass a ha, h.mass g hg, unwrap, bind, Except.bind,
    update_self, h.prob, h.partner]
  split_ifs with hlt hlt' hlt'
  · exact ⟨_, rfl, hsmall.2.push g, hlarge.2, rfl, rfl, hmass, rfl, rfl⟩
  · exact absurd hlt hlt'
  · exact absurd hlt' hlt
  · exact ⟨_, rfl, hsmall.2, hlarge.2.push g, rfl, rfl, hmass, rfl, rfl⟩

theorem pairAll_holds {items : Finset CorpusId} (hitems : ∀ i ∈ items, i ∈ ids) :
    ∀ (fuel : ℕ) (w : Work F) (l : Loop CorpusId F), Holds ids w l → Loop.Covers items l →
      ∃ w', pairAll fuel w = .ok w' ∧ Holds ids w' (run isSmall give fuel l)
  | 0, w, _, h, _ => ⟨w, rfl, h⟩
  | fuel + 1, w, l, h, hcovers => by
    unfold pairAll run
    cases hs : l.small with
    | nil =>
      rw [if_neg (by rw [h.nS, hs]; simp)]
      exact ⟨w, rfl, h⟩
    | cons a small =>
      cases hl : l.large with
      | nil =>
        rw [if_neg (by rw [h.nL, hl]; simp)]
        exact ⟨w, rfl, h⟩
      | cons g large =>
        rw [if_pos (by rw [h.nS, h.nL, hs, hl]; simp)]
        have ha : a ∈ ids := hitems a (hcovers.rest a (by simp [rest, hs]))
        have hg : g ∈ ids := hitems g (hcovers.rest g (by simp [rest, hl]))
        obtain ⟨w', hw', hholds⟩ := pairUp_holds h hs hl ha hg
        rw [hw']
        exact pairAll_holds hitems fuel w' _ hholds (hcovers.pair hs hl)

theorem drain_eq : ∀ (xs : List CorpusId) (prob : HashMap CorpusId F),
    IsStack arr xs → drain arr xs.length prob = .ok fun i => if i ∈ xs then some (lit 1) else prob i
  | [], prob, _ => by simp [drain]
  | x :: xs, prob, h => by
    rw [length_cons, drain, h.1]
    have ih := drain_eq xs (update prob x (some (lit 1))) h.2
    simp only [unwrap, bind, Except.bind, ih]
    congr 1
    funext i
    by_cases hi : i = x
    · subst hi; simp
    · simp [hi]

/-! ### The table -/

/-- The state in which the loop of the alias method ends. -/
def ended (ids : List CorpusId) (mass : CorpusId → F) : Loop CorpusId F :=
  run isSmall give ids.length (start isSmall ids mass)

/-- The in-place construction computes the alias method and never hits a missing entry. -/
theorem buildTables_eq (hnodup : ids.Nodup) {pArr : HashMap CorpusId F} {mass : CorpusId → F}
    (hmass : ∀ i ∈ ids, pArr i = some (mass i)) :
    buildTables ids pArr = .ok
      { aliasTable := (ended ids mass).partner
        aliasProbability := (ended ids mass).finish (lit 1) } := by
  obtain ⟨w, hw, hholds⟩ := divide_holds ids.reverse (fun _ => mem_reverse.mp) { pArr }
    ⟨mass, [], [], fun _ => none, fun _ => none⟩ ⟨trivial, trivial, rfl, rfl, hmass, rfl, rfl⟩
  have hstart : Holds ids w (start isSmall ids mass) := by
    simpa [start] using hholds
  have hn : w.nS + w.nL = ids.length := by
    rw [hstart.nS, hstart.nL, ← length_append]
    exact (start_rest_perm ids mass).length_eq
  obtain ⟨w', hw', hended⟩ := pairAll_holds (by simp) (w.nS + w.nL) w _ hstart
    (start_covers hnodup mass)
  rw [hn] at hended
  have hended : Holds ids w' (ended ids mass) := hended
  simp only [buildTables, hw, hw', bind, Except.bind, hended.nS, hended.nL, drain_eq _ _ hended.small,
    drain_eq _ _ hended.large, hended.prob, hended.partner]
  congr 2
  funext i
  simp only [finish, rest, mem_append]
  split_ifs <;> tauto

variable {compute : CorpusId → Except Error F}

theorem weigh_eq {f : CorpusId → F} :
    ∀ (ids : List CorpusId), (∀ i ∈ ids, compute i = .ok (f i)) →
      ∀ (weights : HashMap CorpusId F) (sum : F), weigh compute ids weights sum
        = .ok (fun i => if i ∈ ids then some (f i) else weights i, (ids.map f).foldl (· + ·) sum)
  | [], _, weights, sum => by simp [weigh]
  | i :: ids, h, weights, sum => by
    have ih := weigh_eq ids (fun j hj => h j (.tail _ hj)) (update weights i (some (f i)))
      (sum + f i)
    rw [weigh, h i mem_cons_self]
    simp only [bind, Except.bind, ih, map_cons, foldl_cons]
    congr 2
    funext j
    by_cases hj : j = i
    · subst hj; simp
    · simp [hj]

/-- The mass of an entry: its weight, scaled to one unit on average. -/
def scaled (ids : List CorpusId) (f : CorpusId → F) (i : CorpusId) : F :=
  f i * F64.ofNat ids.length / F64.sum (ids.map f)

theorem createAliasTable_eq (hnodup : ids.Nodup) {f : CorpusId → F}
    (h : ∀ i ∈ ids, compute i = .ok (f i)) :
    createAliasTable ids compute = .ok
      { aliasTable := (ended ids (scaled ids f)).partner
        aliasProbability := (ended ids (scaled ids f)).finish (lit 1) } := by
  simp only [createAliasTable, weigh_eq ids h, bind, Except.bind]
  refine buildTables_eq hnodup fun i hi => ?_
  rw [scale, if_pos hi]
  rfl

theorem weigh_ok : ∀ (ids : List CorpusId)
    {weights : HashMap CorpusId F} {sum : F} {r : HashMap CorpusId F × F},
    weigh compute ids weights sum = .ok r → ∀ i ∈ ids, ∃ x, compute i = .ok x
  | [], _, _, _, _ => by simp
  | i :: ids, _, _, _, h => by
    rw [weigh] at h
    cases hi : compute i with
    | error e => rw [hi] at h; cases h
    | ok x =>
      rw [hi] at h
      exact forall_mem_cons.mpr ⟨⟨x, hi⟩, weigh_ok ids h⟩

/-- Whatever the scores are, the table that is built has a probability for exactly the entries, and
    its partners are entries. -/
theorem createAliasTable_keys (hnodup : ids.Nodup) {t : Tables F}
    (h : createAliasTable ids compute = .ok t) :
    (∀ i, (t.aliasProbability i).isSome ↔ i ∈ ids) ∧ ∀ i j, t.aliasTable i = some j → j ∈ ids := by
  have hall : ∀ i ∈ ids, ∃ x, compute i = .ok x := by
    unfold createAliasTable at h
    cases hw : weigh compute ids (fun _ => none) (lit 0) with
    | error e => rw [hw] at h; cases h
    | ok r => exact weigh_ok ids hw
  have hf : ∀ i ∈ ids, compute i = .ok (((compute i).toOption).getD (lit 0)) := by
    intro i hi
    obtain ⟨x, hx⟩ := hall i hi
    rw [hx]
    rfl
  rw [createAliasTable_eq hnodup hf] at h
  cases h
  have hcovers (mass : CorpusId → F) : Loop.Covers ids.toFinset (ended ids mass) :=
    (start_covers hnodup mass).run _
  exact ⟨fun i => ((hcovers _).finish _ i).trans mem_toFinset,
    fun i j hij => mem_toFinset.mp ((hcovers _).partner i j hij)⟩

/-! ### Exact weights -/

section
variable {weight : CorpusId → ℚ}

/-- The share of an entry, in units. -/
def share (ids : List CorpusId) (weight : CorpusId → ℚ) (i : CorpusId) : ℚ :=
  weight i * ids.length / (ids.map weight).sum

theorem scaled_fin (hsum : (ids.map weight).sum ≠ 0) (i : CorpusId) :
    scaled ids (fun i => fin (weight i)) i = .fin (share ids weight i) := by
  have hmap : ids.map (fun i => fin (weight i)) = (ids.map weight).map fin := by
    rw [map_map]
    rfl
  rw [scaled, hmap, sum_map_fin, ofNat, lit_eq, fin_mul, fin_div _ hsum]
  rfl

/-- Exact arithmetic computes the loop over the rationals. -/
theorem ended_fin (ids : List CorpusId) (mass : CorpusId → ℚ) :
    ended ids (fun i => fin (mass i))
      = (Loop.run Loop.isSmall Loop.give ids.length (Loop.start Loop.isSmall ids mass)).map .fin := by
  have hsmall : ∀ q : ℚ, isSmall (fin q) = Loop.isSmall q := fun q => lt_fin q 1
  have hgive : ∀ p q : ℚ, give (fin p) (fin q) = fin (Loop.give p q) := by
    intro p q
    show fin (p + (q + -1)) = fin (p + (q - 1))
    rw [sub_eq_add_neg]
  have hstart : Loop.start isSmall ids (fun i => fin (mass i))
      = (Loop.start Loop.isSmall ids mass).map .fin := by
    simp only [Loop.start, Loop.map, hsmall, map_none]
  rw [ended, hstart, Loop.run_map hsmall hgive]

theorem sum_pos (hne : ids ≠ []) (hpos : ∀ i ∈ ids, 0 < weight i) : 0 < (ids.map weight).sum :=
  List.sum_pos _ (by simpa using hpos) (by simpa using hne)

theorem sum_share (hsum : (ids.map weight).sum ≠ 0) :
    (ids.map (share ids weight)).sum = ids.length := by
  have hshare : share ids weight = fun i => ids.length / (ids.map weight).sum * weight i := by
    funext i
    unfold share
    ring
  rw [hshare, sum_map_mul_left, div_mul_cancel₀ _ hsum]

/-- The tables that the code makes of a loop over the rationals. -/
def ofLoop (l : Loop CorpusId ℚ) : Tables Exact where
  aliasTable := l.partner
  aliasProbability i := (l.finish 1 i).map .fin

/-- With positive weights the code builds a table of the shares. -/
theorem createAliasTable_isTable (hnodup : ids.Nodup) (hne : ids ≠ [])
    (hpos : ∀ i ∈ ids, 0 < weight i) : ∃ l : Loop CorpusId ℚ,
      createAliasTable ids (fun i => .ok (fin (weight i))) = .ok (ofLoop l) ∧
      IsTable ids.toFinset (share ids weight) (l.finish 1) l.partner := by
  have hsum := sum_pos hne hpos
  have hnonneg : ∀ i ∈ ids, 0 ≤ share ids weight i := fun i hi =>
    div_nonneg (mul_nonneg (hpos i hi).le (Nat.cast_nonneg _)) hsum.le
  have hstart := balanced_start hnodup hnonneg (sum_share hsum.ne')
  refine ⟨Loop.run Loop.isSmall Loop.give ids.length
    (Loop.start Loop.isSmall ids (share ids weight)), ?_, ?_⟩
  · rw [createAliasTable_eq (f := fun i => fin (weight i)) hnodup fun _ _ => rfl,
      funext (scaled_fin hsum.ne'), ended_fin, lit_eq, finish_map]
    rfl
  · refine (hstart.run _).isTable (run_done _ _ ?_)
    rw [(start_rest_perm ids _).length_eq]

/-! ### Sampling -/

/-- The comparison of `next` with a number drawn from the reals. -/
noncomputable def below (p : ℝ) : Exact → Bool
  | .fin q => decide (p < q)
  | .inf negative => !negative
  | .nan => false

theorem pick_ofLoop {l : Loop CorpusId ℚ} {s i : CorpusId} {p : ℝ} :
    pick (ofLoop l) s (below p) = .ok i ↔
      AliasMethod.pick (fun i => (l.finish 1 i).map (Rat.castHom ℝ)) l.partner s p = some i := by
  have hprob : (ofLoop l).aliasProbability s = (l.finish 1 s).map .fin := rfl
  rw [AliasMethod.pick, pick, hprob]
  cases l.finish 1 s with
  | none =>
    rw [map_none, map_none]
    simp [unwrap, bind, Except.bind]
  | some q =>
    rw [map_some, map_some, bind_some, eq_ratCast]
    by_cases hlt : p < q
    · rw [if_pos hlt]
      simp [unwrap, bind, Except.bind, below, hlt, pure, Except.pure]
    have hpartner : (ofLoop l).aliasTable s = l.partner s := rfl
    rw [if_neg hlt]
    cases hs : l.partner s <;>
      simp [unwrap, bind, Except.bind, below, hlt, hpartner, hs]

/-- The alias table samples exactly: every entry has a probability in the unit interval and, if it
    is below one, a partner in the corpus; whatever is drawn `next` finds an entry; and each entry
    is drawn in proportion to its weight. -/
theorem alias_table_exact (ids : List CorpusId) (hnodup : ids.Nodup) (hne : ids ≠ [])
    (weight : CorpusId → ℚ) (hpos : ∀ i ∈ ids, 0 < weight i) :
    ∃ t : Tables Exact, createAliasTable ids (fun i => .ok (.fin (weight i))) = .ok t ∧
      (∀ i ∈ ids, ∃ q : ℚ, t.aliasProbability i = some (.fin q) ∧ 0 ≤ q ∧ q ≤ 1 ∧
        (q < 1 → ∃ j ∈ ids, t.aliasTable i = some j)) ∧
      (∀ s ∈ ids, ∀ p ∈ Set.Ico (0 : ℝ) 1, ∃ i ∈ ids, pick t s (below p) = .ok i) ∧
      ∀ i ∈ ids, draw ids.toFinset ((toFinset_nonempty_iff ids).mpr hne)
          {sp | pick t sp.1 (below sp.2) = .ok i}
        = ENNReal.ofReal (weight i / (ids.map weight).sum) := by
  obtain ⟨l, hcreate, htable⟩ := createAliasTable_isTable hnodup hne hpos
  refine ⟨_, hcreate, ?_, ?_, ?_⟩
  · intro i hi
    obtain ⟨q, hq, h0, h1, hpartner⟩ := htable.unit i (mem_toFinset.mpr hi)
    refine ⟨q, by simp [ofLoop, hq], h0, h1, fun hlt => ?_⟩
    obtain ⟨j, hj, heq⟩ := hpartner hlt
    exact ⟨j, mem_toFinset.mp hj, heq⟩
  · intro s hs p hp
    obtain ⟨q, hq, h0, h1, hpartner⟩ := htable.unit s (mem_toFinset.mpr hs)
    simp only [pick, ofLoop, hq, map_some, unwrap, bind, Except.bind, below,
      decide_eq_true_eq]
    split_ifs with hlt
    · exact ⟨s, hs, rfl⟩
    · have hq1 : q < 1 := by exact_mod_cast (not_lt.mp hlt).trans_lt hp.2
      obtain ⟨j, hj, heq⟩ := hpartner hq1
      exact ⟨j, mem_toFinset.mp hj, by rw [heq]⟩
  · intro i hi
    have hreal := htable.map (Rat.castHom ℝ) Rat.cast_strictMono
    have hcard : (ids.toFinset.card : ℝ) = ids.length := by
      rw [toFinset_card_of_nodup hnodup]
    have hlen : (ids.length : ℝ) ≠ 0 := Nat.cast_ne_zero.mpr (by simpa using hne)
    have hset : {sp : CorpusId × ℝ | pick (ofLoop l) sp.1 (below sp.2) = .ok i} = {sp |
        AliasMethod.pick (fun i => (l.finish 1 i).map (Rat.castHom ℝ)) l.partner sp.1 sp.2 = some i} :=
      Set.ext fun _ => pick_ofLoop
    rw [hset, draw_pick _ hreal (mem_toFinset.mpr hi), hcard, eq_ratCast, share]
    congr 1
    push_cast
    field_simp

/-- Two entries, the second one three times as heavy. -/
theorem alias_table_exact_demo : ∃ t : Tables Exact,
    createAliasTable [0, 2] (fun i => .ok (.fin (i + 1))) = .ok t ∧
      draw [0, 2].toFinset ((toFinset_nonempty_iff [0, 2]).mpr (by decide))
        {sp | pick t sp.1 (below sp.2) = .ok 2} = ENNReal.ofReal (3 / 4) := by
  obtain ⟨t, ht, _, _, hdraw⟩ := alias_table_exact [0, 2] (by decide) (by decide)
    (fun i => (i : ℚ) + 1) (fun i _ => by positivity)
  refine ⟨t, ht, (hdraw 2 (by decide)).trans ?_⟩
  norm_num

end

end Bofuzz.Weighted
