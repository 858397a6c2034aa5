import Bofuzz.Lib.Effect
import Bofuzz.Lib.OwnedKeys
import Bofuzz.Lib.Run
import Bofuzz.Libafl.Corpus
import Mathlib.Data.Finset.Card

/-! The top-rated entries of the minimizer scheduler (`libafl/src/schedulers/minimizer.rs`).

    Every index of the coverage map is owned by the entry with the best score among those that cover
    it. The owners are kept in the metadata of the state, and each entry counts the indexes it owns
    in its own metadata, which is dropped once the count is zero. Whoever takes an index over lowers
    the count of the previous owner. -/

namespace Bofuzz.Minimizer
open Effect Run SortedKeys List SortedMap
open Option hiding map_map

structure MapIndexesMetadata where
  list : List ℕ
  tcref : ℤ := 0

structure Entry where
  indexes : Option MapIndexesMetadata := none
  isFavored : Bool := false

/-- The corpus and `TopRatedsMetadata`, if it is there. -/
structure World where
  corpus : InMemoryCorpus Entry := {}
  topRateds : Option (SortedMap ℕ CorpusId) := none

/-- The owners of the indexes. -/
def World.top (w : World) : SortedMap ℕ CorpusId := w.topRateds.getD .empty

/-- The index metadata of a live entry. -/
def World.indexes (w : World) (id : CorpusId) : Option MapIndexesMetadata :=
  (w.corpus.enabled.get id).bind (·.indexes)

variable (w : World)

/-- Write or drop the index metadata of an entry. -/
def World.setIndexes (id : CorpusId) (m : Option MapIndexesMetadata) : World :=
  { w with corpus := w.corpus.modify id fun entry => { entry with indexes := m } }

variable {α : Type} [LT α] [DecidableLT α] (compute : World → CorpusId → α) (removeMetadata : Bool)

/-! ### Updating the score of an entry -/

/-- One round of the loop of `update_score`: whether the entry `id` gets the index. -/
def contest (id : CorpusId) (factor : α) (elem : ℕ) : EStateM Error World Bool := do
  let w ← get
  match w.top.get elem with
  | none => pure true
  | some oldId =>
    if oldId = id then pure true
    else
      let old ← ofResult (w.corpus.get oldId)
      if compute w oldId < factor then pure false
      else
        match old.indexes with
        | none => throw (.keyNotFound (.ownerIndexesMissing oldId))
        | some m =>
          let m := { m with tcref := m.tcref - 1 }
          set (w.setIndexes oldId (if m.tcref ≤ 0 ∧ removeMetadata then none else some m))
          pure true

/-- The indexes that the entry gets. -/
def newFavoreds (id : CorpusId) (factor : α) : List ℕ → EStateM Error World (List ℕ)
  | [] => pure []
  | elem :: rest => do
    let mine ← contest compute removeMetadata id factor elem
    let others ← newFavoreds id factor rest
    pure (if mine then elem :: others else others)

def updateScore (id : CorpusId) : EStateM Error World Unit := do
  modify fun w => { w with topRateds := some w.top }
  let w ← get
  let entry ← ofResult (w.corpus.get id)
  match entry.indexes with
  | none => throw (.keyNotFound (.indexesMissing id))
  | some m =>
    let favoreds ← newFavoreds compute removeMetadata id (compute w id) m.list
    modify fun w => w.setIndexes id (some { m with tcref := favoreds.length })
    if favoreds = [] ∧ removeMetadata then modify fun w => w.setIndexes id none
    else modify fun w => { w with topRateds := some (w.top.assign favoreds id) }

/-! ### Removing an entry -/

/-- The manual set intersection of `on_remove`. -/
def intersect : List ℕ → List ℕ → List ℕ
  | e :: entries, me :: map =>
    match compare e me with
    | .lt => intersect entries (me :: map)
    | .eq => e :: intersect entries map
    | .gt => intersect (e :: entries) map
  | _, _ => []
  termination_by entries map => entries.length + map.length

/-- An entry with a better factor is preferred. -/
def prefer (factor : α) (currentId : CorpusId) (best : SortedMap ℕ (α × CorpusId)) (e : ℕ) :
    SortedMap ℕ (α × CorpusId) :=
  match best.get e with
  | some (f, _) => if factor < f then best.insert e (factor, currentId) else best
  | none => best.insert e (factor, currentId)

variable (entries : List ℕ)

/-- The best remaining entry for each of the indexes that lose their owner. -/
def successors (w : World) : SortedMap ℕ (α × CorpusId) :=
  w.corpus.ids.foldl (fun best currentId =>
    match w.indexes currentId with
    | some m => (intersect entries m.list).foldl (prefer (compute w currentId) currentId) best
    | none => best) .empty

/-- Hand the indexes over to their new owners. -/
def adopt : List (ℕ × CorpusId) → SortedMap ℕ CorpusId → EStateM Error World (SortedMap ℕ CorpusId)
  | [], top => pure top
  | (entry, newId) :: rest, top => do
    let w ← get
    let new ← ofResult (w.corpus.get newId)
    match new.indexes with
    | none => throw (.keyNotFound (.ownerIndexesMissing newId))
    | some m =>
      set (w.setIndexes newId (some { m with tcref := m.tcref + 1 }))
      adopt rest (top.insert entry newId)

/-- `on_remove`, after the entry has left the corpus. -/
def onRemove (id : CorpusId) : EStateM Error World Unit := do
  let w ← get
  match w.topRateds with
  | none => pure ()
  | some top =>
    let entries := top.keys.filter fun k => top.get k = some id
    let w := { w with topRateds := some (top.discard id) }
    let map := successors compute entries w
    set { w with topRateds := none }
    let top ← adopt (map.entries.map fun e => (e.1, e.2.2)) (top.discard id)
    modify fun w => { w with topRateds := some top }

/-! ### Culling -/

/-- `cull`, with the owners in the order in which the hash map yields them. -/
def cull : List (ℕ × CorpusId) → List ℕ → EStateM Error World Unit
  | [], _ => pure ()
  | (key, id) :: order, acc => do
    if key ∈ acc then cull order acc
    else
      let w ← get
      let entry ← ofResult (w.corpus.get id)
      match entry.indexes with
      | none => throw (.keyNotFound (.ownerIndexesMissing id))
      | some m =>
        set { w with corpus := w.corpus.modify id fun entry => { entry with isFavored := true } }
        cull order (acc ++ m.list)

/-! ### Events -/

/-- A testcase as it is added or as it replaces another one. -/
structure Tracked where
  indexes : MapIndexesMetadata
  increasing : Increasing indexes.list
  isFavored : Bool := false

def Tracked.entry (t : Tracked) : Entry := { indexes := some t.indexes, isFavored := t.isFavored }

/-- A change of the corpus together with its callback, and the scores at that time. -/
inductive Event (α : Type) where
  | add (compute : World → CorpusId → α) (testcase : Tracked)
  | replace (compute : World → CorpusId → α) (id : CorpusId) (testcase : Tracked)
  | remove (compute : World → CorpusId → α) (id : CorpusId)

def step (w : World) : Event α → World
  | .add compute testcase =>
    let (id, corpus) := w.corpus.add testcase.entry
    finalState (updateScore compute removeMetadata id) { w with corpus }
  | .replace compute id testcase =>
    match w.corpus.replace id testcase.entry with
    | .ok (_, corpus) => finalState (updateScore compute removeMetadata id) { w with corpus }
    | .error _ => w
  | .remove compute id =>
    match w.corpus.remove id with
    | .ok (_, corpus) => finalState (onRemove compute id) { w with corpus }
    | .error _ => w

/-! ### Owners and counts -/

@[simp] theorem top_setIndexes (id : CorpusId) (m : Option MapIndexesMetadata) :
    (w.setIndexes id m).top = w.top := rfl

variable {w : World} {id : CorpusId}

theorem indexes_setIndexes {old : MapIndexesMetadata} (h : w.indexes id = some old)
    (m : Option MapIndexesMetadata) (j : CorpusId) :
    (w.setIndexes id m).indexes j = if j = id then m else w.indexes j := by
  obtain ⟨entry, hentry, _⟩ := bind_eq_some_iff.mp h
  unfold World.indexes World.setIndexes
  rw [w.corpus.get_modify]
  split_ifs with hj
  · rw [hj, hentry]
    rfl
  · rfl

variable {m : MapIndexesMetadata}

theorem lists_setIndexes (hm : w.indexes id = some m) (n : ℤ) {j : CorpusId} {k : ℕ}
    (h : ∃ m', w.indexes j = some m' ∧ k ∈ m'.list) :
    ∃ m', (w.setIndexes id (some { m with tcref := n })).indexes j = some m' ∧ k ∈ m'.list := by
  rw [indexes_setIndexes hm]
  split_ifs with hj
  · obtain ⟨m', hm', hk⟩ := h
    rw [hj, hm] at hm'
    cases hm'
    exact ⟨_, rfl, hk⟩
  · exact h

theorem ne_free_of_indexes (h : w.indexes id = some m) : id ≠ w.corpus.peekFreeId := by
  obtain ⟨entry, hentry, _⟩ := bind_eq_some_iff.mp h
  have hmem : id ∈ w.corpus.ids := by
    rw [w.corpus.mem_ids, hentry]
    rfl
  exact (w.corpus.lt_free hmem).ne

theorem get_of_indexes (h : w.indexes id = some m) :
    ∃ entry, w.corpus.get id = .ok entry ∧ entry.indexes = some m := by
  obtain ⟨entry, hentry, hm⟩ := bind_eq_some_iff.mp h
  exact ⟨entry, by rw [InMemoryCorpus.get, hentry], hm⟩

/-- Every index is owned by an entry that lists it, and every entry counts what it owns. -/
structure Rated (top : SortedMap ℕ CorpusId) (indexes : CorpusId → Option MapIndexesMetadata) :
    Prop where
  points : ∀ k id, top.get k = some id → ∃ m, indexes id = some m ∧ k ∈ m.list
  refcnt : ∀ id m, indexes id = some m → m.tcref = (top.owned id).card

/-- The same for the entries other than `id` after it has taken some indexes from them, which the
    map of the owners does not show yet. -/
structure Contested (id : CorpusId) (taken : Finset ℕ) (w : World) : Prop where
  points : ∀ k j, j ≠ id → k ∉ taken → w.top.get k = some j → ∃ m, w.indexes j = some m ∧ k ∈ m.list
  refcnt : ∀ j m, j ≠ id → w.indexes j = some m → m.tcref = (w.top.owned j \ taken).card

variable {taken : Finset ℕ} {elem : ℕ}

theorem Contested.of_owned (h : Contested id taken w)
    (helem : ∀ j, j ≠ id → w.top.get elem ≠ some j) : Contested id (insert elem taken) w := by
  refine ⟨fun k j hj hk hkj => ?_, fun j m hj hm => ?_⟩
  · exact h.points k j hj (fun hmem => hk (Finset.mem_insert_of_mem hmem)) hkj
  · have hnot : elem ∉ w.top.owned j := fun hmem => helem j hj (w.top.mem_owned.mp hmem)
    rw [h.refcnt j m hj hm, Finset.sdiff_insert_of_notMem hnot]

/-- Taking an index from its owner leaves the owner with one less, and without metadata only if it
    owns nothing else. -/
theorem Contested.take {oldId : CorpusId} (h : Contested id taken w)
    (hne : oldId ≠ id) (helem : elem ∉ taken) (hown : w.top.get elem = some oldId)
    (hm : w.indexes oldId = some m) : Contested id (insert elem taken)
      (w.setIndexes oldId (if m.tcref - 1 ≤ 0 ∧ removeMetadata then none
        else some { m with tcref := m.tcref - 1 })) := by
  have hcard : m.tcref - 1 = (w.top.owned oldId \ insert elem taken).card := by
    have hmem : elem ∈ w.top.owned oldId \ taken :=
      Finset.mem_sdiff.mpr ⟨w.top.mem_owned.mpr hown, helem⟩
    rw [h.refcnt oldId m hne hm, Finset.sdiff_insert, Finset.card_erase_of_mem hmem]
    have hpos := Finset.card_pos.mpr ⟨elem, hmem⟩
    omega
  refine ⟨fun k j hj hk hkj => ?_, fun j m' hj hm' => ?_⟩
  · rw [top_setIndexes] at hkj
    have hktaken : k ∉ taken := fun hmem => hk (Finset.mem_insert_of_mem hmem)
    obtain ⟨m', hm', hkm'⟩ := h.points k j hj hktaken hkj
    rw [indexes_setIndexes hm]
    by_cases hjold : j = oldId
    · subst hjold
      cases hm.symm.trans hm'
      have hpos := Finset.card_pos.mpr
        ⟨k, Finset.mem_sdiff.mpr ⟨w.top.mem_owned.mpr hkj, hk⟩⟩
      rw [if_pos rfl, if_neg (by omega)]
      exact ⟨_, rfl, hkm'⟩
    · rw [if_neg hjold]
      exact ⟨m', hm', hkm'⟩
  · rw [indexes_setIndexes hm] at hm'
    rw [top_setIndexes]
    by_cases hjold : j = oldId
    · subst hjold
      rw [if_pos rfl] at hm'
      split_ifs at hm' with hdrop
      cases hm'
      exact hcard
    · rw [if_neg hjold] at hm'
      have hnot : elem ∉ w.top.owned j := by
        intro hmem
        exact hjold (Option.some.inj ((w.top.mem_owned.mp hmem).symm.trans hown))
      rw [h.refcnt j m' hj hm', Finset.sdiff_insert_of_notMem hnot]

/-! ### The loop of `update_score` -/

section
variable {removeMetadata} {id : CorpusId} {factor : α}

/-- The owners and the metadata of the entry itself stay as they are during the loop. -/
def SameEntry (id : CorpusId) (w v : World) : Prop := v.top = w.top ∧ v.indexes id = w.indexes id

variable {w : World}

theorem contest_spec (h : Contested id taken w) (helem : elem ∉ taken) :
    Spec (contest compute removeMetadata id factor elem) w
      (fun mine v => Contested id (if mine then insert elem taken else taken) v ∧ SameEntry id w v ∧
        (w.top.get elem = some id → mine = true))
      (fun _ _ => False) := by
  simp only [contest, spec_bind, spec_get]
  cases hown : w.top.get elem with
  | none =>
    refine ⟨h.of_owned fun j _ hj => ?_, ⟨rfl, rfl⟩, fun _ => rfl⟩
    rw [hown] at hj
    cases hj
  | some oldId =>
    by_cases hid : oldId = id
    · simp only [if_pos hid]
      refine ⟨h.of_owned fun j hj hjo => ?_, ⟨rfl, rfl⟩, fun _ => rfl⟩
      rw [hown] at hjo
      exact hj ((Option.some.inj hjo).symm.trans hid)
    · -- the previous owner is there and has its metadata, since it owns the index
      obtain ⟨m, hm, _⟩ := h.points elem oldId hid helem hown
      obtain ⟨old, hold, holdm⟩ := get_of_indexes hm
      have hretain : some oldId = some id → False := fun heq => hid (Option.some.inj heq)
      simp only [if_neg hid, spec_bind, hold, spec_ofResult_ok]
      split_ifs
      · exact ⟨h, ⟨rfl, rfl⟩, fun heq => (hretain heq).elim⟩
      · simp only [holdm, spec_bind, spec_set]
        refine ⟨h.take removeMetadata hid helem hown hm, ⟨rfl, ?_⟩, fun _ => rfl⟩
        rw [indexes_setIndexes hm, if_neg (Ne.symm hid)]

theorem newFavoreds_spec : ∀ (list : List ℕ) (taken : Finset ℕ) {w : World}, list.Nodup →
    (∀ k ∈ list, k ∉ taken) → Contested id taken w →
    Spec (newFavoreds compute removeMetadata id factor list) w
      (fun got v => Contested id (taken ∪ got.toFinset) v ∧ SameEntry id w v ∧ got.Sublist list ∧
        ∀ k ∈ list, w.top.get k = some id → k ∈ got)
      (fun _ _ => False)
  | [], taken, w, _, _, h => by
    refine ⟨?_, ⟨rfl, rfl⟩, .refl [], fun k hk => by cases hk⟩
    rw [toFinset_nil, Finset.union_empty]
    exact h
  | elem :: rest, taken, w, hnodup, hnot, h => by
    obtain ⟨helem, hrest⟩ := nodup_cons.mp hnodup
    simp only [newFavoreds, spec_bind, spec_pure]
    refine (contest_spec compute h (hnot elem mem_cons_self)).imp fun mine v hv => ?_
    obtain ⟨hcontested, ⟨htop, hindexes⟩, hretain⟩ := hv
    have hnot' : ∀ k ∈ rest, k ∉ if mine then insert elem taken else taken := by
      intro k hk hmem
      have hktaken := hnot k (.tail _ hk)
      cases mine with
      | true =>
        rcases Finset.mem_insert.mp hmem with rfl | hmem
        · exact helem hk
        · exact hktaken hmem
      | false => exact hktaken hmem
    refine (newFavoreds_spec rest _ hrest hnot' hcontested).imp fun got u hu => ?_
    obtain ⟨hcontested', ⟨htop', hindexes'⟩, hsub, hkeep⟩ := hu
    refine ⟨?_, ⟨htop'.trans htop, hindexes'.trans hindexes⟩, ?_⟩
    · cases mine with
      | true => rwa [if_pos rfl, toFinset_cons, Finset.union_insert, ← Finset.insert_union]
      | false => exact hcontested'
    · rw [htop] at hkeep
      cases mine with
      | true =>
        refine ⟨hsub.cons_cons elem, forall_mem_cons.mpr ⟨fun _ => mem_cons_self, ?_⟩⟩
        exact fun k hk hown => .tail _ (hkeep k hk hown)
      | false =>
        refine ⟨hsub.cons elem, forall_mem_cons.mpr ⟨?_, hkeep⟩⟩
        exact fun hown => absurd (hretain hown) Bool.false_ne_true

variable {m : MapIndexesMetadata}

section
variable (hm : w.indexes id = some m)
include hm

/-- When the loop is done, the indexes taken are assigned to the entry, which counts them. -/
theorem Contested.assign {got : List ℕ} (h : Contested id got.toFinset w) (hnodup : got.Nodup)
    (hsub : ∀ k ∈ got, k ∈ m.list) (hown : ∀ k, w.top.get k = some id → k ∈ got) :
    Rated (w.top.assign got id) (w.setIndexes id (some { m with tcref := got.length })).indexes := by
  refine ⟨fun k j hkj => ?_, fun j m' hm' => ?_⟩
  · rw [get_assign] at hkj
    rw [indexes_setIndexes hm]
    by_cases hk : k ∈ got
    · rw [if_pos hk] at hkj
      rw [if_pos (Option.some.inj hkj).symm]
      exact ⟨_, rfl, hsub k hk⟩
    · rw [if_neg hk] at hkj
      have hj : j ≠ id := fun hj => hk (hown k (hj ▸ hkj))
      rw [if_neg hj]
      exact h.points k j hj (fun hmem => hk (mem_toFinset.mp hmem)) hkj
  · rw [indexes_setIndexes hm] at hm'
    by_cases hj : j = id
    · have hall : got.toFinset ∪ w.top.owned j = got.toFinset := by
        refine Finset.union_eq_left.mpr fun k hk => mem_toFinset.mpr (hown k ?_)
        rw [← hj]
        exact w.top.mem_owned.mp hk
      rw [if_pos hj] at hm'
      cases hm'
      subst hj
      rw [owned_assign_self, hall, toFinset_card_of_nodup hnodup]
    · rw [if_neg hj] at hm'
      rw [owned_assign_of_ne _ _ hj]
      exact h.refcnt j m' hj hm'

theorem Rated.drop (h : Rated w.top w.indexes) (hown : ∀ k, w.top.get k ≠ some id) :
    Rated w.top (w.setIndexes id none).indexes := by
  refine ⟨fun k j hkj => ?_, fun j m' hm' => ?_⟩
  · have hj : j ≠ id := fun hj => hown k (hj ▸ hkj)
    rw [indexes_setIndexes hm, if_neg hj]
    exact h.points k j hkj
  · rw [indexes_setIndexes hm] at hm'
    split_ifs at hm' with hj
    exact h.refcnt j m' hm'

/-- `update_score` leaves the owners of the indexes that the entry does not list, and puts all in
    order for an entry that lists all the indexes it owns already. -/
theorem updateScore_spec (hinc : Increasing m.list) (h : Contested id ∅ w) :
    Spec (updateScore compute removeMetadata id) w
      (fun _ v => (∀ k, k ∉ m.list → v.top.get k = w.top.get k) ∧
        (∀ m', v.indexes id = some m' → m'.list = m.list) ∧
        ((∀ k, w.top.get k = some id → k ∈ m.list) → Rated v.top v.indexes))
      (fun _ _ => False) := by
  obtain ⟨entry, hentry, hentrym⟩ := get_of_indexes hm
  have hcontested : Contested id ∅ { w with topRateds := some w.top } := ⟨h.points, h.refcnt⟩
  simp only [updateScore, spec_bind, spec_modify, spec_get, hentry, spec_ofResult_ok, hentrym]
  refine (newFavoreds_spec compute m.list ∅ hinc.nodup (fun k _ => Finset.notMem_empty k)
    hcontested).imp fun got v hv => ?_
  obtain ⟨hgot, ⟨htop, hindexes⟩, hsub, hkeep⟩ := hv
  have htop : v.top = w.top := htop
  have hmv : v.indexes id = some m := hindexes.trans hm
  have hset : (v.setIndexes id (some { m with tcref := got.length })).indexes id
      = some { m with tcref := got.length } := by
    rw [indexes_setIndexes hmv, if_pos rfl]
  rw [Finset.empty_union] at hgot
  have hown : (∀ k, w.top.get k = some id → k ∈ m.list) → ∀ k, v.top.get k = some id → k ∈ got := by
    intro hcover k hk
    rw [htop] at hk
    exact hkeep k (hcover k hk) hk
  have hassign := fun hcover =>
    hgot.assign hmv (hinc.nodup.sublist hsub) (fun k hk => hsub.subset hk) (hown hcover)
  split_ifs with hnone
  · obtain ⟨rfl, _⟩ := hnone
    refine ⟨fun k _ => congrArg (·.get k) htop, fun m' hm' => ?_, fun hcover => ?_⟩
    · rw [indexes_setIndexes hset, if_pos rfl] at hm'
      cases hm'
    · have hrated : Rated (v.setIndexes id (some { m with tcref := 0 })).top
          (v.setIndexes id (some { m with tcref := 0 })).indexes := hassign hcover
      exact hrated.drop hset fun k hk => not_mem_nil (hown hcover k hk)
  · refine ⟨fun k hk => ?_, fun m' hm' => ?_, hassign⟩
    · refine (get_assign id k got _).trans ?_
      rw [if_neg fun hmem => hk (hsub.subset hmem), top_setIndexes, htop]
    · cases hset.symm.trans hm'
      rfl

end

end

/-! ### `on_remove` -/

theorem mem_of_mem_intersect {e : ℕ} {entries map : List ℕ} (h : e ∈ intersect entries map) :
    e ∈ entries ∧ e ∈ map := by
  fun_induction intersect entries map with
  | case1 e' entries me map hlt ih => exact ⟨.tail _ (ih h).1, (ih h).2⟩
  | case2 e' entries me map heq ih =>
    rcases mem_cons.mp h with rfl | h
    · rw [compare_eq_iff_eq.mp heq]
      exact ⟨mem_cons_self, mem_cons_self⟩
    · exact ⟨.tail _ (ih h).1, .tail _ (ih h).2⟩
  | case3 e' entries me map hgt ih => exact ⟨(ih h).1, .tail _ (ih h).2⟩
  | case4 => cases h

/-- The successors found so far are among the entries that list the index. -/
def Fitting (w : World) (best : SortedMap ℕ (α × CorpusId)) : Prop :=
  ∀ e p, best.get e = some p → e ∈ entries ∧ ∃ m, w.indexes p.2 = some m ∧ e ∈ m.list

variable {best : SortedMap ℕ (α × CorpusId)}

section
variable {entries : List ℕ} {e : ℕ} (h : Fitting entries w best) (he : e ∈ entries) (factor : α)
  (hm : w.indexes id = some m) (hem : e ∈ m.list)
include h he hm hem

omit [LT α] [DecidableLT α] in
theorem Fitting.insert : Fitting entries w (best.insert e (factor, id)) := by
  intro k p hk
  rw [get_insert] at hk
  split_ifs at hk with hke
  · cases hk
    rw [hke]
    exact ⟨he, m, hm, hem⟩
  · exact h k p hk

theorem Fitting.prefer : Fitting entries w (prefer factor id best e) := by
  unfold Minimizer.prefer
  cases best.get e with
  | none => exact h.insert he factor hm hem
  | some p =>
    dsimp only
    split_ifs
    · exact h.insert he factor hm hem
    · exact h

end

theorem successors_fitting (w : World) : Fitting entries w (successors compute entries w) := by
  refine List.foldlRecOn (motive := Fitting entries w) _ _ ?_ ?_
  · intro e p hep
    cases hep
  · intro best hbest id _
    cases hm : w.indexes id with
    | none => exact hbest
    | some m =>
      refine List.foldlRecOn (motive := Fitting entries w) _ _ hbest fun best hbest e he => ?_
      obtain ⟨he, hem⟩ := mem_of_mem_intersect he
      exact hbest.prefer he _ hm hem

/-- An index without an owner goes to an entry that lists it. -/
theorem Rated.adopt {top : SortedMap ℕ CorpusId} (h : Rated top w.indexes) {e : ℕ}
    (hfree : top.get e = none) (hm : w.indexes id = some m) (hem : e ∈ m.list) :
    Rated (top.insert e id)
      (w.setIndexes id (some { m with tcref := m.tcref + 1 })).indexes := by
  have hnot : ∀ j, e ∉ top.owned j := by
    intro j hmem
    rw [top.mem_owned, hfree] at hmem
    cases hmem
  refine ⟨fun k j hkj => ?_, fun j m' hm' => ?_⟩
  · rw [get_insert] at hkj
    by_cases hke : k = e
    · rw [if_pos hke] at hkj
      rw [← Option.some.inj hkj, hke]
      exact lists_setIndexes hm _ ⟨m, hm, hem⟩
    · rw [if_neg hke] at hkj
      exact lists_setIndexes hm _ (h.points k j hkj)
  · rw [indexes_setIndexes hm] at hm'
    by_cases hj : j = id
    · subst hj
      rw [if_pos rfl] at hm'
      cases hm'
      have howned : (top.insert e j).owned j = insert e (top.owned j) :=
        (top.owned_assign_self [e] j).trans (by simp)
      rw [howned, Finset.card_insert_of_notMem (hnot j), h.refcnt j m hm]
      push_cast
      rfl
    · rw [if_neg hj] at hm'
      have howned : (top.insert e id).owned j = top.owned j :=
        (top.owned_assign_of_ne [e] hj).trans (by simp [hnot j])
      rw [howned]
      exact h.refcnt j m' hm'

theorem adopt_spec : ∀ (pairs : List (ℕ × CorpusId)) (top : SortedMap ℕ CorpusId) {w : World},
    Rated top w.indexes → (pairs.map Prod.fst).Nodup →
    (∀ p ∈ pairs, top.get p.1 = none ∧ ∃ m, w.indexes p.2 = some m ∧ p.1 ∈ m.list) →
    Spec (adopt pairs top) w (fun top' v => Rated top' v.indexes) (fun _ _ => False)
  | [], _, _, h, _, _ => h
  | (e, id) :: pairs, top, w, h, hnodup, hpairs => by
    obtain ⟨hfree, m, hm, hem⟩ := hpairs (e, id) mem_cons_self
    obtain ⟨entry, hentry, hentrym⟩ := get_of_indexes hm
    obtain ⟨hnot, hnodup⟩ := nodup_cons.mp hnodup
    simp only [adopt, spec_bind, spec_get, hentry, spec_ofResult_ok, hentrym, spec_set]
    refine adopt_spec pairs _ (h.adopt hfree hm hem) hnodup fun p hp => ?_
    obtain ⟨hpfree, hlists⟩ := hpairs p (.tail _ hp)
    have hmem : p.1 ∈ pairs.map Prod.fst := mem_map_of_mem hp
    have hpe : p.1 ≠ e := fun hpe => hnot (hpe ▸ hmem)
    refine ⟨?_, lists_setIndexes hm _ hlists⟩
    rw [get_insert, if_neg hpe, hpfree]

/-- The entries that are left after one of them and its ownerships have gone. -/
theorem Contested.discard (h : Contested id ∅ w) (hnone : w.indexes id = none) :
    Rated (w.top.discard id) w.indexes := by
  refine ⟨fun k j hkj => ?_, fun j m hm => ?_⟩
  · rw [get_discard] at hkj
    split_ifs at hkj with hk
    have hj : j ≠ id := fun hj => hk (hj ▸ hkj)
    exact h.points k j hj (Finset.notMem_empty k) hkj
  · have hj : j ≠ id := by
      rintro rfl
      rw [hnone] at hm
      cases hm
    rw [owned_discard_of_ne _ hj, h.refcnt j m hj hm, Finset.sdiff_empty]

theorem onRemove_spec (h : Contested id ∅ w) (hnone : w.indexes id = none) :
    Spec (onRemove compute id) w (fun _ v => Rated v.top v.indexes) (fun _ _ => False) := by
  have hrated := h.discard hnone
  simp only [onRemove, spec_bind, spec_get]
  cases htop : w.topRateds with
  | none =>
    have hempty : w.top = .empty := by rw [World.top, htop, getD_none]
    rw [hempty] at hrated
    show Rated w.top w.indexes
    rw [hempty]
    exact hrated
  | some top =>
    have heq : w.top = top := by rw [World.top, htop, getD_some]
    rw [heq] at hrated
    simp only [spec_bind, spec_set, spec_modify]
    have hfit := successors_fitting compute (top.keys.filter fun k => top.get k = some id)
      { w with topRateds := some (top.discard id) }
    refine adopt_spec (w := { w with topRateds := none }) _ _ hrated ?_ fun p hp => ?_
    · rw [map_map]
      exact (keys_increasing _).nodup
    · obtain ⟨e, he, rfl⟩ := mem_map.mp hp
      obtain ⟨hmem, hm⟩ := hfit e.1 e.2 ((get_eq_some_iff _).mpr he)
      obtain ⟨_, hown⟩ := mem_filter.mp hmem
      rw [get_discard, if_pos (of_decide_eq_true hown)]
      exact ⟨rfl, hm⟩

/-! ### One `cull` -/

/-- Whether the entry carries `IsFavoredMetadata`. -/
def World.isFavored (w : World) (id : CorpusId) : Bool :=
  (w.corpus.enabled.get id).any (·.isFavored)

/-- The entry is the top-rated one of some index. -/
def World.Owns (id : CorpusId) : Prop := ∃ k, w.top.get k = some id

/-- Some favoured entry covers the index. -/
def World.Covers (k : ℕ) : Prop :=
  ∃ id m, w.isFavored id ∧ w.indexes id = some m ∧ k ∈ m.list

/-- The effect of a `cull` over the owners in `order`, the indexes in `acc` being covered before. -/
structure Marks (order : List (ℕ × CorpusId)) (acc : List ℕ) (w v : World) : Prop where
  top : v.top = w.top
  indexes : v.indexes = w.indexes
  kept : ∀ id, w.isFavored id → v.isFavored id
  owners : ∀ id, v.isFavored id → w.isFavored id ∨ w.Owns id
  covers : ∀ e ∈ order, e.1 ∈ acc ∨ v.Covers e.1

theorem indexes_favor (w : World) (id j : CorpusId) : World.indexes
    { w with corpus := w.corpus.modify id fun entry => { entry with isFavored := true } } j
      = w.indexes j := by
  unfold World.indexes
  rw [w.corpus.get_modify]
  split_ifs
  · cases w.corpus.enabled.get j <;> rfl
  · rfl

theorem isFavored_favor
    (hm : w.indexes id = some m) (j : CorpusId) : World.isFavored
      { w with corpus := w.corpus.modify id fun entry => { entry with isFavored := true } } j
        ↔ j = id ∨ w.isFavored j := by
  obtain ⟨entry, hentry, _⟩ := bind_eq_some_iff.mp hm
  unfold World.isFavored
  rw [w.corpus.get_modify]
  by_cases hj : j = id
  · simp [hj, hentry]
  · simp [hj]

theorem cull_marks : ∀ (order : List (ℕ × CorpusId)) (acc : List ℕ) {w : World},
    Rated w.top w.indexes → (∀ e ∈ order, w.top.get e.1 = some e.2) →
    Spec (cull order acc) w (fun _ => Marks order acc w) (fun _ _ => False)
  | [], _, _, _, _ => ⟨rfl, rfl, fun _ h => h, fun _ h => .inl h, by simp⟩
  | (key, id) :: order, acc, w, h, horder => by
    have hrest : ∀ e ∈ order, w.top.get e.1 = some e.2 := fun e he => horder e (.tail _ he)
    have hown := horder (key, id) mem_cons_self
    rw [cull]
    split_ifs with hkey
    · refine (cull_marks order acc h hrest).imp fun _ v hv => ?_
      exact { hv with covers := forall_mem_cons.mpr ⟨.inl hkey, hv.covers⟩ }
    obtain ⟨m, hm, hkeym⟩ := h.points key id hown
    obtain ⟨entry, hentry, hentrym⟩ := get_of_indexes hm
    have hindexes := indexes_favor w id
    have hfavored := isFavored_favor hm
    simp only [spec_bind, spec_get, hentry, spec_ofResult_ok, hentrym, spec_set]
    set w' : World :=
      { w with corpus := w.corpus.modify id fun entry => { entry with isFavored := true } }
    have hsame : w'.indexes = w.indexes := funext hindexes
    refine (cull_marks order (acc ++ m.list) (w := w') (by rw [hsame]; exact h) hrest).imp
      fun _ v hv => ?_
    -- the entry just marked covers its own indexes, the key among them
    have hmine : ∀ k ∈ m.list, v.Covers k := fun k hk =>
      ⟨id, m, hv.kept id ((hfavored id).mpr (.inl rfl)), by rw [hv.indexes, hsame, hm], hk⟩
    refine ⟨hv.top, hv.indexes.trans hsame, fun j hj => hv.kept j ((hfavored j).mpr (.inr hj)),
      fun j hj => ?_, forall_mem_cons.mpr ⟨.inr (hmine _ hkeym), fun e he => ?_⟩⟩
    · rcases hv.owners j hj with hj | hj
      · rcases (hfavored j).mp hj with rfl | hj
        · exact .inr ⟨key, hown⟩
        · exact .inl hj
      · exact .inr hj
    · rcases hv.covers e he with hacc | hcover
      · exact (mem_append.mp hacc).imp_right (hmine e.1)
      · exact .inr hcover

/-! ### Every sequence of calls -/

/-- The bookkeeping is in order: owners list what they own, every entry counts what it owns, and a
    `cull` finds all the metadata it needs, in whatever order it meets the owners. -/
structure Bookkept (w : World) : Prop extends Rated w.top w.indexes where
  cull : ∀ order acc, (∀ e ∈ order, w.top.get e.1 = some e.2) →
    Spec (cull order acc) w (fun _ _ => True) (fun _ _ => False)

theorem Rated.bookkept (h : Rated w.top w.indexes) : Bookkept w :=
  ⟨h, fun order acc horder => (cull_marks order acc h horder).imp fun _ _ _ => trivial⟩

theorem bookkept_of_spec {m : EStateM Error World Unit}
    (h : Spec m w (fun _ v => Rated v.top v.indexes) (fun _ _ => False)) :
    Bookkept (finalState m w) :=
  finalState_of_spec (h.total fun _ _ hv => hv.bookkept)

/-- A change of one entry of the corpus leaves the others in order. -/
theorem Rated.contested (h : Rated w.top w.indexes) {corpus : InMemoryCorpus Entry}
    {entry : Option Entry}
    (hcorpus : ∀ j, corpus.enabled.get j = if j = id then entry else w.corpus.enabled.get j) :
    Contested id ∅ { w with corpus } := by
  have hindexes : ∀ j, j ≠ id → World.indexes { w with corpus } j = w.indexes j := by
    intro j hj
    rw [World.indexes, hcorpus j, if_neg hj, World.indexes]
  refine ⟨fun k j hj _ hkj => ?_, fun j m hj hm => ?_⟩
  · rw [hindexes j hj]
    exact h.points k j hkj
  · rw [hindexes j hj] at hm
    rw [Finset.sdiff_empty]
    exact h.refcnt j m hm

/-- A replacement must list all the indexes that the entry owns at that time. -/
def Covering (w : World) : Event α → Prop
  | .replace _ id testcase => ∀ k, w.top.get k = some id → k ∈ testcase.indexes.list
  | _ => True

section
variable {removeMetadata}

theorem add_bookkept (testcase : Tracked) (h : Bookkept w) :
    Bookkept (step removeMetadata w (.add compute testcase)) := by
  have hget := w.corpus.get_add testcase.entry
  have hm : World.indexes { w with corpus := (w.corpus.add testcase.entry).2 } w.corpus.peekFreeId
      = some testcase.indexes := by
    rw [World.indexes, hget, if_pos rfl]
    rfl
  have hcontested := h.toRated.contested hget
  refine bookkept_of_spec ((updateScore_spec compute hm testcase.increasing hcontested).imp
    fun _ v hv => hv.2.2 fun k hk => ?_)
  -- a free id owns nothing
  obtain ⟨m, hfree, _⟩ := h.points k _ hk
  exact absurd rfl (ne_free_of_indexes hfree)

theorem remove_bookkept (id : CorpusId) (h : Bookkept w) :
    Bookkept (step removeMetadata w (.remove compute id)) := by
  rw [step]
  cases hremove : w.corpus.remove id with
  | error e => exact h
  | ok r =>
    have hget := w.corpus.get_remove hremove
    have hnone : World.indexes { w with corpus := r.2 } id = none := by
      rw [World.indexes, hget, if_pos rfl]
      rfl
    exact bookkept_of_spec (onRemove_spec compute (h.toRated.contested hget) hnone)

/-- A replacement keeps the bookkeeping in order exactly if it lists what the entry owns: the
    indexes it does not list keep their owner. -/
theorem replace_bookkept_iff (id : CorpusId) (testcase : Tracked) (h : Bookkept w) :
    Bookkept (step removeMetadata w (.replace compute id testcase)) ↔
      ∀ k, w.top.get k = some id → k ∈ testcase.indexes.list := by
  rw [step]
  cases hreplace : w.corpus.replace id testcase.entry with
  | error e =>
    refine iff_of_true h fun k hk => ?_
    obtain ⟨m, hm, _⟩ := h.points k id hk
    obtain ⟨entry, hentry, _⟩ := bind_eq_some_iff.mp hm
    rw [InMemoryCorpus.replace, hentry] at hreplace
    cases hreplace
  | ok r =>
    have hget := w.corpus.get_replaced hreplace
    have hm : World.indexes { w with corpus := r.2 } id = some testcase.indexes := by
      rw [World.indexes, hget, if_pos rfl]
      rfl
    have hcontested := h.toRated.contested hget
    obtain ⟨hsame, hlist, hrated⟩ := finalState_of_spec (m := updateScore compute removeMetadata id)
      ((updateScore_spec compute hm testcase.increasing hcontested).total fun _ _ hv => hv)
    refine ⟨fun hkept k hk => ?_, fun hcover => (hrated hcover).bookkept⟩
    by_contra hnot
    obtain ⟨m, hmid, hkm⟩ := hkept.points k id ((hsame k hnot).trans hk)
    rw [hlist m hmid] at hkm
    exact hnot hkm

theorem step_bookkept_iff (w : World) (e : Event α) (h : Bookkept w) :
    Bookkept (step removeMetadata w e) ↔ Covering w e := by
  cases e with
  | add compute testcase => exact iff_of_true (add_bookkept compute testcase h) trivial
  | remove compute id => exact iff_of_true (remove_bookkept compute id h) trivial
  | replace compute id testcase => exact replace_bookkept_iff compute id testcase h

end

/-- A sequence of calls keeps the bookkeeping in order after each of them exactly if every
    replacement lists the indexes that the replaced entry owns when it comes. -/
theorem top_rated_bookkeeping_iff (removeMetadata : Bool) (w₀ : World) (h₀ : Bookkept w₀)
    (events : List (Event α)) :
    (∀ n, Bookkept (run (step removeMetadata) w₀ (events.take n))) ↔
      Along (step removeMetadata) Covering w₀ events :=
  forall_take_iff (fun w e h => step_bookkept_iff w e h) events w₀ h₀

theorem bookkept_empty : Bookkept {} := by
  refine Rated.bookkept ⟨fun k id h => ?_, fun id m h => ?_⟩
  · cases h
  · cases h

/-- Two entries share an index, and the first one is replaced by a testcase that lists the index it
    has kept. -/
def coveringEvents : List (Event ℕ) :=
  let score : World → CorpusId → ℕ := fun _ id => 5 - id
  [.add score ⟨⟨[1, 4], 0⟩, by simp [Increasing], false⟩,
    .add score ⟨⟨[4, 7], 0⟩, by simp [Increasing], false⟩,
    .replace score 0 ⟨⟨[1, 3], 0⟩, by simp [Increasing], false⟩]

theorem top_rated_bookkeeping_covering : Along (step true) Covering {} coveringEvents ∧
    Bookkept (run (step true) {} coveringEvents) := by
  have halong : Along (step true) Covering {} coveringEvents := by
    refine ⟨trivial, trivial, fun k hk => ?_, trivial⟩
    have hall : ∀ k ∈ (run (step true) {} (coveringEvents.take 2)).top.owned 0, k ∈ [1, 3] := by
      decide +kernel
    exact hall k ((mem_owned _).mpr hk)
  exact ⟨halong, (top_rated_bookkeeping_iff true {} bookkept_empty coveringEvents).mpr halong 3⟩

/-- An entry is replaced by one that does not list the index it owns, and then loses the index it
    does list to a better entry. -/
def staleEvents : List (Event ℕ) :=
  let score : World → CorpusId → ℕ := fun _ id => if id = 0 then 2 else 1
  [.add score ⟨⟨[1], 0⟩, by simp [Increasing], false⟩,
    .replace score 0 ⟨⟨[2], 0⟩, by simp [Increasing], false⟩,
    .add score ⟨⟨[2], 0⟩, by simp [Increasing], false⟩]

/-- The entry still owns the index when its metadata is dropped, and `cull` fails. -/
theorem replacement_leaves_stale_owner :
    (run (step true) {} staleEvents).top.get 1 = some 0 ∧
      (run (step true) {} staleEvents).indexes 0 = none ∧
      (∃ w, cull [(1, 0), (2, 1)] [] (run (step true) {} staleEvents)
        = .error (.keyNotFound (.ownerIndexesMissing 0)) w) ∧
      ¬Bookkept (run (step true) {} staleEvents) := by
  have hown : (run (step true) {} staleEvents).top.get 1 = some 0 := by decide +kernel
  have hnone : (run (step true) {} staleEvents).indexes 0 = none := by
    rw [← isNone_iff_eq_none]
    decide +kernel
  refine ⟨hown, hnone, ⟨_, rfl⟩, fun h => ?_⟩
  obtain ⟨m, hm, _⟩ := h.points 1 0 hown
  rw [hnone] at hm
  cases hm

end Bofuzz.Minimizer
